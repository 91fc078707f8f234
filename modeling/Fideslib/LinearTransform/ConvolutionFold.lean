/-
This file gives what the convolution transforms compute and when they keep every giant step.
-/

import Fideslib.LinearTransform.Convolution

namespace Fideslib.LinearTransform

open SlotRotation (rotateSlots)

section Folding

variable {A : Type} [AddCommMonoid A]

/-- This is the fold of the transforms over the numbers of their results. -/
def accumulated (count : Nat) (results : Nat → A) : A :=
  if count % 2 = 0 then HalvingFold.fold (· + ·) count results
  else ∑ place ∈ Finset.range count, results place

/-- The fold keeps every result of an odd number and of a power of two. -/
def Kept (count : Nat) : Prop := count % 2 = 1 ∨ ∃ exponent, count = 2 ^ exponent

theorem accumulated_sum {count : Nat} (kept : Kept count) (results : Nat → A) :
    accumulated count results = ∑ place ∈ Finset.range count, results place := by
  rw [accumulated]
  rcases kept with odd | ⟨exponent, rfl⟩
  · rw [if_neg (by omega)]
  · by_cases even : 2 ^ exponent % 2 = 0
    · rw [if_pos even, HalvingFold.fold_sum]
    · rw [if_neg even]

theorem accumulated_congr {count : Nat} (nonempty : 0 < count) {first second : Nat → A}
    (same : ∀ place < count, first place = second place) :
    accumulated count first = accumulated count second := by
  rw [accumulated, accumulated, HalvingFold.fold_congr nonempty same,
    Finset.sum_congr rfl fun place inside => same place (Finset.mem_range.mp inside)]

theorem accumulated_zero {count : Nat} (nonempty : 0 < count) {results : Nat → A}
    (empty : ∀ place < count, results place = 0) : accumulated count results = 0 := by
  rw [accumulated]
  by_cases even : count % 2 = 0
  · rw [if_pos even, HalvingFold.fold_zero nonempty empty]
  · rw [if_neg even]
    exact Finset.sum_eq_zero fun place inside => empty place (Finset.mem_range.mp inside)

/-- The fold drops a result of any other number. -/
theorem accumulated_drops {count : Nat} (nonempty : 0 < count) (lost : ¬Kept count) :
    ∃ dropped < count, ∀ results : Nat → A, (∀ place ≠ dropped, results place = 0) →
      accumulated count results = 0 := by
  have even : count % 2 = 0 := by
    have odd : ¬count % 2 = 1 := fun odd => lost (.inl odd)
    omega
  obtain ⟨dropped, inside, drops⟩ :=
    @HalvingFold.fold_drops A _ count nonempty fun exponent power => lost (.inr ⟨exponent, power⟩)
  refine ⟨dropped, inside, ?_⟩
  intro results empty
  rw [accumulated, if_pos even]
  exact drops results empty

end Folding

section Results

variable {slots : Nat} {R : Type} [CommRing R]

/-- The fold of results is the fold of their vectors. -/
theorem accumulateResults_vector (results : Nat → Slotted slots R) {count : Nat}
    (nonempty : 0 < count) :
    (accumulateResults ((List.range count).map results)).vector =
      accumulated count fun place => (results place).vector := by
  have entry {place : Nat} (inside : place < count) :
      ((List.range count).map results).getD place ⟨0, false⟩ = results place := by
    rw [List.getD_eq_getElem?_getD, List.getElem?_map, List.getElem?_range inside]
    rfl
  have carries (first second : Slotted slots R) :
      (first.add second).vector = first.vector + second.vector := rfl
  rw [accumulateResults, accumulated, List.length_map, List.length_range]
  by_cases even : count % 2 = 0
  · rw [if_pos even, if_pos even]
    rw [HalvingFold.fold_map Slotted.vector carries]
    exact HalvingFold.fold_congr nonempty fun place inside => by rw [entry inside]
  · rw [if_neg even, if_neg even]
    have partway : ∀ added < count,
        ((List.range added).foldl (fun (total : Slotted slots R) j => total.add
          (((List.range count).map results).getD (j + 1) ⟨0, false⟩))
          (((List.range count).map results).getD 0 ⟨0, false⟩)).vector =
          ∑ place ∈ Finset.range (added + 1), (results place).vector := by
      intro added few
      induction added with
      | zero =>
          rw [List.range_zero, List.foldl_nil, entry nonempty, Finset.sum_range_one]
      | succ added inductionHypothesis =>
          rw [List.range_succ, List.foldl_append, List.foldl_cons, List.foldl_nil, Slotted.add,
            inductionHypothesis (by omega), entry few, Finset.sum_range_succ _ (added + 1)]
    have whole := partway (count - 1) (by omega)
    rwa [Nat.sub_add_cancel nonempty] at whole

/-- A fold of results of one basis is in this basis. -/
theorem accumulateResults_modUp {results : List (Slotted slots R)} {ext : Bool}
    (nonempty : 0 < results.length) (same : ∀ result ∈ results, result.modUp = ext) :
    (accumulateResults results).modUp = ext := by
  have entry {place : Nat} (inside : place < results.length) :
      (results.getD place ⟨0, false⟩).modUp = ext := by
    rw [List.getD_eq_getElem?_getD, List.getElem?_eq_getElem inside]
    exact same _ (List.getElem_mem inside)
  have keeps (first second : Slotted slots R) (left : first.modUp = ext)
      (right : second.modUp = ext) : (first.add second).modUp = ext := by
    rw [Slotted.add, left, right, Bool.or_self]
  rw [accumulateResults]
  by_cases even : results.length % 2 = 0
  · rw [if_pos even]
    exact HalvingFold.fold_invariant (fun result : Slotted slots R => result.modUp = ext) keeps nonempty
      fun place inside => entry inside
  · rw [if_neg even]
    have partway : ∀ added < results.length,
        ((List.range added).foldl (fun (total : Slotted slots R) j => total.add
          (results.getD (j + 1) ⟨0, false⟩)) (results.getD 0 ⟨0, false⟩)).modUp = ext := by
      intro added few
      induction added with
      | zero => exact entry nonempty
      | succ added inductionHypothesis =>
          rw [List.range_succ, List.foldl_append, List.foldl_cons, List.foldl_nil]
          exact keeps _ _ (inductionHypothesis (by omega)) (entry few)
    exact partway (results.length - 1) (by omega)

/-- A rotation that is not trivial is issued. -/
def issuedRotation (slots : Nat) (rotation : Int) : List Int :=
  if (slots : Int) ∣ rotation then [] else [rotation]

variable {N : Nat}

omit [CommRing R] in
theorem rotateGiant_eq (positive : 0 < slots) (divides : slots ∣ N / 2) (result : Slotted slots R)
    {rotation : Int} (allowed : result.modUp = true → (slots : Int) ∣ rotation) :
    rotateGiant N result rotation = some
      (⟨rotateSlots result.vector rotation, result.modUp⟩, issuedRotation slots rotation) := by
  have normalised := normalyzeIndex_eq_zero positive divides rotation
  rw [rotateGiant, issuedRotation]
  by_cases trivial : (slots : Int) ∣ rotation
  · rw [if_neg (not_not.mpr (normalised.mpr trivial)), if_pos trivial,
      SlotRotation.rotateSlots_of_dvd _ trivial]
  · have regular : result.modUp = false := by
      rw [← Bool.not_eq_true]
      exact mt allowed trivial
    rw [if_pos (mt normalised.mp trivial), if_neg trivial, Slotted.rotate, regular,
      rotate_of_not_dvd positive divides _ trivial]
    rfl

omit [CommRing R] in
/-- An extended result cannot be rotated. -/
theorem rotateGiant_none (positive : 0 < slots) (divides : slots ∣ N / 2)
    {result : Slotted slots R} (extended : result.modUp = true) {rotation : Int}
    (proper : ¬(slots : Int) ∣ rotation) : rotateGiant N result rotation = none := by
  rw [rotateGiant, if_pos (mt (normalyzeIndex_eq_zero positive divides rotation).mp proper),
    Slotted.rotate, if_pos extended]
  rfl

/-- This is the sum of one giant step. -/
def innerSum (ctxt : ZMod slots → R) (bStep : Nat) (pts : List (Slotted slots R))
    (indexes : List Int) (giant : Nat) : ZMod slots → R :=
  ∑ i ∈ Finset.range bStep,
    rotateSlots ctxt (indexes.getD i 0) * (pts.getD (bStep * giant + i) ⟨0, false⟩).vector

theorem DotProductPtInternal_eq (divides : slots ∣ N / 2) (ctxt : ZMod slots → R)
    {rowSize bStep giant : Nat} {pts : List (Slotted slots R)} {indexes : List Int}
    (rows : pts.length = rowSize) (rotations : indexes.length = bStep) (babySteps : 1 ≤ bStep)
    (filled : bStep * giant < rowSize) (ext : Bool) :
    DotProductPtInternal (indexes.map (rotateHoisted N ctxt)) rowSize bStep pts ext giant =
      some ⟨innerSum ctxt bStep pts indexes giant, ext⟩ := by
  rw [DotProductPtInternal, if_neg (by omega), innerSum]
  congr 2
  apply Finset.sum_congr rfl
  intro i inside
  rw [Finset.mem_range, ← rotations] at inside
  have operand : (indexes.map (rotateHoisted N ctxt)).getD i 0 =
      rotateSlots ctxt (indexes.getD i 0) := by
    rw [List.getD_eq_getElem?_getD, List.getD_eq_getElem?_getD, List.getElem?_map,
      List.getElem?_eq_getElem inside]
    exact rotateHoisted_eq divides _ _
  by_cases given : bStep * giant + i < rowSize
  · rw [if_pos given, operand]
  · have outside : pts.getD (bStep * giant + i) ⟨0, false⟩ = ⟨0, false⟩ := by
      rw [List.getD_eq_getElem?_getD, List.getElem?_eq_none (by omega)]
      rfl
    rw [if_neg given, outside, mul_zero]

end Results

section Blocks

variable {slots N : Nat} {R : Type} [CommRing R]

def blockLength (gStep blockIdx : Nat) : Nat :=
  min (blockIdx * INTERNAL_GSTEP + INTERNAL_GSTEP) gStep - blockIdx * INTERNAL_GSTEP

def blockCount (gStep : Nat) : Nat := (gStep + INTERNAL_GSTEP - 1) / INTERNAL_GSTEP

/-- A giant step is rotated to the end of its block. -/
def blockRotation (stride : Int) (gStep blockIdx j : Nat) : Int :=
  stride * ((blockLength gStep blockIdx - j : Nat) : Int)

/-- A block is rotated to the start of the last block. -/
def chainRotation (stride : Int) (gStep blockIdx : Nat) : Int :=
  ((blockCount gStep - 1 - blockIdx : Nat) : Int) * (INTERNAL_GSTEP * stride)

/-- These are the vectors of one block before its own rotation. -/
def blockVector (stride : Int) (gStep : Nat) (terms : Nat → ZMod slots → R) (blockIdx : Nat) :
    ZMod slots → R :=
  accumulated (blockLength gStep blockIdx) fun j =>
    rotateSlots (terms (blockIdx * INTERNAL_GSTEP + j)) (blockRotation stride gStep blockIdx j)

/-- This is what the blocks are folded to. -/
def convolved (stride : Int) (gStep : Nat) (terms : Nat → ZMod slots → R) : ZMod slots → R :=
  accumulated (blockCount gStep) fun blockIdx =>
    rotateSlots (blockVector stride gStep terms blockIdx) (chainRotation stride gStep blockIdx)

def blockRotations (slots : Nat) (extra : List Int) (stride : Int) (gStep blockIdx : Nat) :
    List Int :=
  (List.range (blockLength gStep blockIdx)).flatMap fun j =>
    extra ++ issuedRotation slots (blockRotation stride gStep blockIdx j)

def chainRotations (slots : Nat) (stride : Int) (gStep : Nat) : List Int :=
  (List.range (blockCount gStep)).flatMap fun blockIdx =>
    issuedRotation slots (chainRotation stride gStep blockIdx)

theorem blockLength_pos {gStep blockIdx : Nat} (inside : blockIdx < blockCount gStep) :
    0 < blockLength gStep blockIdx := by
  simp only [blockLength, blockCount, INTERNAL_GSTEP] at inside ⊢
  omega

/-- What a transform does to a result keeps its basis. -/
structure Processes (process : Slotted slots R → Option (Slotted slots R × List Int)) (ext : Bool)
    (processed : (ZMod slots → R) → ZMod slots → R) (extra : List Int) : Prop where
  runs : ∀ vector, process ⟨vector, ext⟩ = some (⟨processed vector, ext⟩, extra)

variable {process : Slotted slots R → Option (Slotted slots R × List Int)} {ext : Bool}
  {processed : (ZMod slots → R) → ZMod slots → R} {extra : List Int}

/-- This is the result that a block leaves. -/
def blockResult (ext : Bool) (stride : Int) (gStep : Nat) (terms : Nat → ZMod slots → R)
    (blockIdx : Nat) : Slotted slots R :=
  accumulateResults ((List.range (blockLength gStep blockIdx)).map fun j =>
    ⟨rotateSlots (terms (blockIdx * INTERNAL_GSTEP + j)) (blockRotation stride gStep blockIdx j), ext⟩)

theorem blockResult_vector {stride : Int} {gStep blockIdx : Nat} {terms : Nat → ZMod slots → R}
    (inside : blockIdx < blockCount gStep) :
    (blockResult ext stride gStep terms blockIdx).vector = blockVector stride gStep terms blockIdx :=
  accumulateResults_vector _ (blockLength_pos inside)

theorem blockResult_modUp {stride : Int} {gStep blockIdx : Nat} {terms : Nat → ZMod slots → R}
    (inside : blockIdx < blockCount gStep) :
    (blockResult ext stride gStep terms blockIdx).modUp = ext := by
  apply accumulateResults_modUp
  · rw [List.length_map, List.length_range]
    exact blockLength_pos inside
  · intro result member
    obtain ⟨j, _, rfl⟩ := List.mem_map.mp member
    rfl

/-- The rotations of a transform whose blocks stay extended are all trivial. -/
theorem blockRotation_allowed {stride : Int} (allowed : ext = true → (slots : Int) ∣ stride)
    (gStep blockIdx j : Nat) (extended : ext = true) :
    (slots : Int) ∣ blockRotation stride gStep blockIdx j :=
  (allowed extended).mul_right _

theorem chainRotation_allowed {stride : Int} (allowed : ext = true → (slots : Int) ∣ stride)
    (gStep blockIdx : Nat) (extended : ext = true) :
    (slots : Int) ∣ chainRotation stride gStep blockIdx :=
  ((allowed extended).mul_left _).mul_left _

theorem convolutionBlock_eq (positive : 0 < slots) (divides : slots ∣ N / 2)
    (ctxt : ZMod slots → R) {rowSize bStep gStep blockIdx : Nat} {pts : List (Slotted slots R)}
    {indexes : List Int} {stride : Int} (rows : pts.length = rowSize)
    (rotations : indexes.length = bStep) (babySteps : 1 ≤ bStep)
    (filled : bStep * (gStep - 1) < rowSize)
    (processes : Processes process ext processed extra)
    (allowed : ext = true → (slots : Int) ∣ stride) :
    convolutionBlock N process (indexes.map (rotateHoisted N ctxt)) rowSize bStep pts ext stride gStep
        blockIdx = some
      (blockResult ext stride gStep
          (fun giant => processed (innerSum ctxt bStep pts indexes giant)) blockIdx,
        blockRotations slots extra stride gStep blockIdx) := by
  have each : ∀ j ∈ List.range (blockLength gStep blockIdx),
      convolutionStep N process (indexes.map (rotateHoisted N ctxt)) rowSize bStep pts ext stride
        (blockIdx * INTERNAL_GSTEP) (blockLength gStep blockIdx) j = some
      ((⟨rotateSlots (processed (innerSum ctxt bStep pts indexes (blockIdx * INTERNAL_GSTEP + j)))
          (blockRotation stride gStep blockIdx j), ext⟩ : Slotted slots R),
        extra ++ issuedRotation slots (blockRotation stride gStep blockIdx j)) := by
    intro j inside
    rw [List.mem_range, blockLength] at inside
    have giant : bStep * (blockIdx * INTERNAL_GSTEP + j) < rowSize := by
      apply Nat.lt_of_le_of_lt (Nat.mul_le_mul_left bStep _) filled
      omega
    rw [convolutionStep, DotProductPtInternal_eq divides ctxt rows rotations babySteps giant]
    simp only [Option.bind_eq_bind, Option.bind_some, processes.runs]
    rw [rotateGiant_eq positive divides _ (blockRotation_allowed allowed gStep blockIdx j)]
    rfl
  rw [convolutionBlock]
  apply Option.bind_eq_some_iff.mpr
  refine ⟨_, PartialLists.mapM_eq_map each, ?_⟩
  rw [List.map_map, List.map_map, blockResult, blockRotations, List.flatMap_def]
  rfl

theorem chainRotation_last (stride : Int) {gStep blockIdx : Nat}
    (last : ¬blockIdx < blockCount gStep - 1) : chainRotation stride gStep blockIdx = 0 := by
  rw [chainRotation, Nat.sub_eq_zero_of_le (Nat.not_lt.mp last), Nat.cast_zero, zero_mul]

/-- Where nothing is rejected, the transform folds its blocks and issues their rotations. -/
theorem convolution_eq (positive : 0 < slots) (divides : slots ∣ N / 2)
    (ctxt : ZMod slots → R) {rowSize bStep gStep : Nat} {pts : List (Slotted slots R)}
    {indexes : List Int} {stride : Int} (rows : pts.length = rowSize)
    (rotations : indexes.length = bStep) (babySteps : 1 ≤ bStep) (giantSteps : 1 ≤ gStep)
    (filled : bStep * (gStep - 1) < rowSize)
    (basis : (bStep ≠ 1 && pts.all Slotted.modUp : Bool) = ext)
    (processes : Processes process ext processed extra)
    (allowed : ext = true → (slots : Int) ∣ stride) :
    convolution N process ctxt rowSize bStep pts stride indexes gStep = some {
      vector := convolved stride gStep fun giant => processed (innerSum ctxt bStep pts indexes giant)
      rotations := (List.range (blockCount gStep)).flatMap
          (blockRotations slots extra stride gStep) ++ chainRotations slots stride gStep } := by
  let terms : Nat → ZMod slots → R := fun giant => processed (innerSum ctxt bStep pts indexes giant)
  have blocks : ∀ blockIdx ∈ List.range (blockCount gStep),
      convolutionBlock N process (indexes.map (rotateHoisted N ctxt)) rowSize bStep pts ext stride
        gStep blockIdx = some
      (blockResult ext stride gStep terms blockIdx,
        blockRotations slots extra stride gStep blockIdx) := fun blockIdx _ =>
    convolutionBlock_eq positive divides ctxt rows rotations babySteps filled processes allowed
  have chained : ∀ blockIdx ∈ List.range (blockCount gStep),
      (do
        let block ← ((List.range (blockCount gStep)).map fun blockIdx =>
          (blockResult ext stride gStep terms blockIdx,
            blockRotations slots extra stride gStep blockIdx))[blockIdx]?
        if blockIdx < blockCount gStep - 1 then
          rotateGiant N block.1 (chainRotation stride gStep blockIdx)
        else some (block.1, [])) = some
      ((⟨rotateSlots (blockResult ext stride gStep terms blockIdx).vector
          (chainRotation stride gStep blockIdx), (blockResult ext stride gStep terms blockIdx).modUp⟩ :
            Slotted slots R), issuedRotation slots (chainRotation stride gStep blockIdx)) := by
    intro blockIdx inside
    rw [List.mem_range] at inside
    rw [List.getElem?_map, List.getElem?_range inside]
    simp only [Option.map_some, Option.bind_eq_bind, Option.bind_some]
    by_cases before : blockIdx < blockCount gStep - 1
    · rw [if_pos before, rotateGiant_eq positive divides]
      intro extended
      rw [blockResult_modUp inside] at extended
      exact chainRotation_allowed allowed gStep blockIdx extended
    · rw [if_neg before, chainRotation_last stride before, SlotRotation.rotateSlots_zero,
        issuedRotation, if_pos (dvd_zero _)]
  have started : 0 < blockCount gStep := by
    rw [blockCount, INTERNAL_GSTEP]
    omega
  rw [convolution, if_neg (by omega), basis]
  refine Option.bind_eq_some_iff.mpr ⟨_, PartialLists.mapM_eq_map blocks, ?_⟩
  refine Option.bind_eq_some_iff.mpr ⟨_, PartialLists.mapM_eq_map chained, ?_⟩
  have vectors : (accumulateResults ((List.range (blockCount gStep)).map fun blockIdx =>
      (⟨rotateSlots (blockResult ext stride gStep terms blockIdx).vector
        (chainRotation stride gStep blockIdx),
          (blockResult ext stride gStep terms blockIdx).modUp⟩ : Slotted slots R))).vector =
      convolved stride gStep terms := by
    rw [accumulateResults_vector _ started, convolved]
    apply accumulated_congr started
    intro blockIdx inside
    rw [blockResult_vector inside]
  change (if blockCount gStep = 0 then none else _) = _
  rw [if_neg started.ne', List.map_map, List.map_map, List.map_map, chainRotations,
    List.flatMap_def, List.flatMap_def, ← vectors]
  rfl

theorem blockCount_bounds {gStep : Nat} (giantSteps : 1 ≤ gStep) :
    (blockCount gStep - 1) * INTERNAL_GSTEP < gStep ∧ gStep ≤ INTERNAL_GSTEP * blockCount gStep ∧
      1 ≤ blockCount gStep := by
  simp only [blockCount, INTERNAL_GSTEP]
  omega

theorem blockLength_full {gStep blockIdx : Nat} (before : blockIdx < blockCount gStep - 1) :
    blockLength gStep blockIdx = INTERNAL_GSTEP := by
  simp only [blockLength, blockCount, INTERNAL_GSTEP] at before ⊢
  omega

/-- The blocks are aligned to the end of the last block, which may be short. -/
def Aligned (slots : Nat) (stride : Int) (gStep : Nat) : Prop :=
  blockCount gStep = 1 ∨
    (slots : Int) ∣ stride * ((INTERNAL_GSTEP * blockCount gStep - gStep : Nat) : Int)

/-- In an aligned transform each giant step has its own rotation. -/
theorem giantRotation_congr {stride : Int} {gStep blockIdx j : Nat}
    (aligned : Aligned slots stride gStep) (inside : blockIdx < blockCount gStep)
    (below : j < blockLength gStep blockIdx) :
    (slots : Int) ∣ blockRotation stride gStep blockIdx j + chainRotation stride gStep blockIdx -
      stride * ((gStep - (blockIdx * INTERNAL_GSTEP + j) : Nat) : Int) := by
  by_cases before : blockIdx < blockCount gStep - 1
  · have multiple := aligned.resolve_left (by omega)
    have bounds := @blockCount_bounds gStep (by simp only [blockLength] at below; omega)
    have full := blockLength_full before
    rw [full] at below
    have distance : blockRotation stride gStep blockIdx j + chainRotation stride gStep blockIdx -
        stride * ((gStep - (blockIdx * INTERNAL_GSTEP + j) : Nat) : Int) =
        stride * ((INTERNAL_GSTEP * blockCount gStep - gStep : Nat) : Int) := by
      have inner : blockIdx * INTERNAL_GSTEP + j ≤ gStep := by
        simp only [INTERNAL_GSTEP] at below bounds ⊢
        omega
      rw [blockRotation, chainRotation, full, Nat.cast_sub below.le, Nat.cast_sub inner,
        Nat.cast_sub bounds.2.1, Nat.sub_sub, Nat.cast_sub (by omega)]
      push_cast
      ring
    rw [distance]
    exact multiple
  · have last : blockIdx = blockCount gStep - 1 := by omega
    have same : blockLength gStep blockIdx - j = gStep - (blockIdx * INTERNAL_GSTEP + j) := by
      simp only [blockLength, blockCount, INTERNAL_GSTEP] at last below ⊢
      omega
    rw [chainRotation_last stride before, blockRotation, same, add_zero, sub_self]
    exact dvd_zero _

/-- This is the sum of all giant steps with their own rotations. -/
def giantSum (stride : Int) (gStep : Nat) (terms : Nat → ZMod slots → R) : ZMod slots → R :=
  ∑ giant ∈ Finset.range gStep,
    rotateSlots (terms giant) (stride * ((gStep - giant : Nat) : Int))

theorem convolved_eq {stride : Int} {gStep : Nat} (giantSteps : 1 ≤ gStep)
    (lastBlock : Kept (blockLength gStep (blockCount gStep - 1))) (blocks : Kept (blockCount gStep))
    (aligned : Aligned slots stride gStep) (terms : Nat → ZMod slots → R) :
    convolved stride gStep terms = giantSum stride gStep terms := by
  let rotated : Nat → ZMod slots → R := fun giant =>
    if giant < gStep then rotateSlots (terms giant) (stride * ((gStep - giant : Nat) : Int)) else 0
  have block : ∀ blockIdx ∈ Finset.range (blockCount gStep),
      rotateSlots (blockVector stride gStep terms blockIdx) (chainRotation stride gStep blockIdx) =
        ∑ j ∈ Finset.range INTERNAL_GSTEP, rotated (INTERNAL_GSTEP * blockIdx + j) := by
    intro blockIdx listed
    have inside := Finset.mem_range.mp listed
    have kept : Kept (blockLength gStep blockIdx) := by
      by_cases before : blockIdx < blockCount gStep - 1
      · rw [blockLength_full before]
        exact .inr ⟨3, rfl⟩
      · rwa [show blockIdx = blockCount gStep - 1 by omega]
    rw [blockVector, accumulated_sum kept, SlotRotation.rotateSlots_sum]
    have fits : blockLength gStep blockIdx ≤ INTERNAL_GSTEP := by
      rw [blockLength]
      omega
    rw [← Finset.sum_subset (Finset.range_mono fits)]
    · apply Finset.sum_congr rfl
      intro j listed
      have below := Finset.mem_range.mp listed
      have given : INTERNAL_GSTEP * blockIdx + j < gStep := by
        rw [blockLength] at below
        rw [Nat.mul_comm]
        omega
      rw [SlotRotation.rotateSlots_rotateSlots]
      simp only [rotated, if_pos given]
      rw [Nat.mul_comm INTERNAL_GSTEP blockIdx]
      exact SlotRotation.rotateSlots_congr _ (giantRotation_congr aligned inside below)
    · intro j _ outside
      have missing : ¬INTERNAL_GSTEP * blockIdx + j < gStep := by
        rw [Finset.mem_range, blockLength] at outside
        rw [Nat.mul_comm]
        rename_i listed
        rw [Finset.mem_range] at listed
        omega
      simp only [rotated, if_neg missing]
  rw [convolved, accumulated_sum blocks, Finset.sum_congr rfl block,
    SlotRotation.sum_blocks rotated INTERNAL_GSTEP (blockCount gStep),
    ← Finset.sum_subset (Finset.range_mono (blockCount_bounds giantSteps).2.1), giantSum]
  · apply Finset.sum_congr rfl
    intro giant listed
    simp only [rotated, if_pos (Finset.mem_range.mp listed)]
  · intro giant _ outside
    simp only [rotated, if_neg (mt Finset.mem_range.mpr outside)]

/-- These terms have a single giant step, which holds one in its first slot. -/
def singleTerm (slots : Nat) (R : Type) [CommRing R] (giant : Nat) : Nat → ZMod slots → R :=
  Pi.single giant (Pi.single 0 1)

theorem rotateSlots_zero_vector (index : Int) : rotateSlots (0 : ZMod slots → R) index = 0 := rfl

theorem giantSum_singleTerm {giant gStep : Nat} (inside : giant < gStep) (stride : Int) :
    giantSum stride gStep (singleTerm slots R giant) =
      rotateSlots (Pi.single 0 1) (stride * ((gStep - giant : Nat) : Int)) := by
  rw [giantSum, Finset.sum_eq_single_of_mem giant (Finset.mem_range.mpr inside), singleTerm,
    Pi.single_eq_same]
  intro other _ different
  rw [singleTerm, Pi.single_eq_of_ne different, rotateSlots_zero_vector]

/-- Rotations tell a single slot apart unless they agree modulo the number of slots. -/
theorem dvd_of_rotateSlots_single [Nontrivial R] {first second : Int}
    (same : rotateSlots (Pi.single (0 : ZMod slots) (1 : R)) first =
      rotateSlots (Pi.single 0 1) second) : (slots : Int) ∣ first - second := by
  by_contra proper
  have read := congrFun same (-(second : Int))
  rw [rotateSlots, rotateSlots, neg_add_cancel, Pi.single_eq_same, Pi.single_eq_of_ne] at read
  · exact zero_ne_one read
  · intro zero
    apply proper
    rw [← ZMod.intCast_zmod_eq_zero_iff_dvd, Int.cast_sub, sub_eq_neg_add]
    exact zero

theorem rotateSlots_single_ne [Nontrivial R] (rotation : Int) :
    rotateSlots (Pi.single (0 : ZMod slots) (1 : R)) rotation ≠ 0 := by
  intro zero
  have read := congrFun zero (-(rotation : Int))
  rw [rotateSlots, neg_add_cancel, Pi.single_eq_same] at read
  exact one_ne_zero read

theorem giantSum_singleTerm_ne [Nontrivial R] {giant gStep : Nat} (inside : giant < gStep)
    (stride : Int) : giantSum stride gStep (singleTerm slots R giant) ≠ 0 := by
  rw [giantSum_singleTerm inside]
  exact rotateSlots_single_ne _

/-- A giant step of another block leaves a block empty. -/
theorem blockVector_singleTerm {stride : Int} {gStep giant blockIdx : Nat}
    (inside : blockIdx < blockCount gStep) (elsewhere : giant / INTERNAL_GSTEP ≠ blockIdx) :
    blockVector stride gStep (singleTerm slots R giant) blockIdx = 0 := by
  apply accumulated_zero (blockLength_pos inside)
  intro j below
  rw [blockLength] at below
  rw [singleTerm, Pi.single_eq_of_ne, rotateSlots_zero_vector]
  rintro rfl
  apply elsewhere
  rw [Nat.mul_comm, Nat.mul_add_div (by decide), Nat.div_eq_of_lt (by omega), Nat.add_zero]

/-- The property of a fold that treats every single giant step right. -/
def RightForSingles (slots : Nat) (R : Type) [CommRing R] (stride : Int) (gStep : Nat) : Prop :=
  ∀ giant < gStep, convolved stride gStep (singleTerm slots R giant) =
    giantSum stride gStep (singleTerm slots R giant)

theorem RightForSingles.lastBlock [Nontrivial R] {stride : Int} {gStep : Nat}
    (right : RightForSingles slots R stride gStep) (giantSteps : 1 ≤ gStep) :
    Kept (blockLength gStep (blockCount gStep - 1)) := by
  obtain ⟨before, _, started⟩ := blockCount_bounds giantSteps
  by_contra lost
  obtain ⟨dropped, below, drops⟩ := @accumulated_drops (ZMod slots → R) _ _
    (blockLength_pos (by omega)) lost
  have inside : (blockCount gStep - 1) * INTERNAL_GSTEP + dropped < gStep := by
    rw [blockLength] at below
    omega
  have small : dropped < INTERNAL_GSTEP := by
    rw [blockLength] at below
    omega
  apply @giantSum_singleTerm_ne slots R _ _ _ _ inside stride
  rw [← right _ inside, convolved]
  apply accumulated_zero started
  intro blockIdx within
  by_cases last : blockIdx = blockCount gStep - 1
  · rw [last, blockVector, drops, rotateSlots_zero_vector]
    intro j other
    rw [singleTerm, Pi.single_eq_of_ne, rotateSlots_zero_vector]
    omega
  · rw [blockVector_singleTerm within, rotateSlots_zero_vector]
    rw [Nat.mul_comm, Nat.mul_add_div (by decide), Nat.div_eq_of_lt small]
    omega

theorem RightForSingles.blocks [Nontrivial R] {stride : Int} {gStep : Nat}
    (right : RightForSingles slots R stride gStep) (giantSteps : 1 ≤ gStep) :
    Kept (blockCount gStep) := by
  obtain ⟨before, _, started⟩ := blockCount_bounds giantSteps
  by_contra lost
  obtain ⟨dropped, below, drops⟩ := @accumulated_drops (ZMod slots → R) _ _ started lost
  have inside : dropped * INTERNAL_GSTEP < gStep := by
    have order : dropped * INTERNAL_GSTEP ≤ (blockCount gStep - 1) * INTERNAL_GSTEP :=
      Nat.mul_le_mul_right _ (by omega)
    omega
  let chained : Nat → ZMod slots → R := fun blockIdx =>
    rotateSlots (blockVector stride gStep (singleTerm slots R (dropped * INTERNAL_GSTEP)) blockIdx)
      (chainRotation stride gStep blockIdx)
  have single : ∀ blockIdx < blockCount gStep,
      chained blockIdx = if blockIdx = dropped then chained blockIdx else 0 := by
    intro blockIdx within
    by_cases same : blockIdx = dropped
    · rw [if_pos same]
    · rw [if_neg same]
      simp only [chained]
      rw [blockVector_singleTerm within, rotateSlots_zero_vector]
      rw [Nat.mul_div_cancel _ (by decide)]
      exact Ne.symm same
  apply @giantSum_singleTerm_ne slots R _ _ _ _ inside stride
  rw [← right _ inside, convolved, accumulated_congr started single]
  apply drops
  intro blockIdx other
  exact if_neg other

/-- The first block holds the first giant step at the rotation to its end. -/
theorem blockVector_first {stride : Int} {gStep : Nat} (several : 0 < blockCount gStep - 1) :
    blockVector stride gStep (singleTerm slots R 0) 0 =
      rotateSlots (Pi.single 0 1) (stride * (INTERNAL_GSTEP : Int)) := by
  have full : blockLength gStep 0 = INTERNAL_GSTEP := blockLength_full several
  have kept : Kept (blockLength gStep 0) := by
    rw [full]
    exact .inr ⟨3, rfl⟩
  rw [blockVector, accumulated_sum kept, full,
    Finset.sum_eq_single_of_mem 0 (Finset.mem_range.mpr (by decide))]
  · rw [Nat.zero_mul, singleTerm, Pi.single_eq_same, blockRotation, full, Nat.sub_zero]
  · intro j _ other
    rw [singleTerm, Pi.single_eq_of_ne (by omega), rotateSlots_zero_vector]

theorem RightForSingles.aligned [Nontrivial R] {stride : Int} {gStep : Nat}
    (right : RightForSingles slots R stride gStep) (giantSteps : 1 ≤ gStep) :
    Aligned slots stride gStep := by
  obtain ⟨before, covered, started⟩ := blockCount_bounds giantSteps
  rw [Aligned, or_iff_not_imp_left]
  intro several
  have first := right 0 (by omega)
  rw [giantSum_singleTerm (by omega), convolved, accumulated_sum (right.blocks giantSteps),
    Finset.sum_eq_single_of_mem 0 (Finset.mem_range.mpr started), blockVector_first (by omega),
    SlotRotation.rotateSlots_rotateSlots] at first
  · have multiple := dvd_of_rotateSlots_single first
    have distance : stride * (INTERNAL_GSTEP : Int) + chainRotation stride gStep 0 -
        stride * ((gStep - 0 : Nat) : Int) =
        stride * ((INTERNAL_GSTEP * blockCount gStep - gStep : Nat) : Int) := by
      rw [chainRotation, Nat.cast_sub covered, Nat.sub_zero, Nat.sub_zero, Nat.cast_sub started]
      push_cast
      ring
    rwa [distance] at multiple
  · intro blockIdx listed other
    rw [blockVector_singleTerm (Finset.mem_range.mp listed), rotateSlots_zero_vector]
    rw [Nat.zero_div]
    exact Ne.symm other

end Blocks

end Fideslib.LinearTransform
