/-
This file settles when the convolution transforms are right and which rotation keys they need.
-/

import Fideslib.LinearTransform.ConvolutionFold

namespace Fideslib.LinearTransform

open SlotRotation (rotateSlots)

section Contract

variable {slots N : Nat} {R : Type} [CommRing R]

/-- The plaintexts are all extended or not all of them are. -/
def SameBasis (extended : Bool) (pts : List (Slotted slots R)) : Prop :=
  pts = [] ∨ pts.all Slotted.modUp = extended

/-- No giant step is empty, the folds keep all of them, and the blocks are aligned. -/
structure ConvolutionProper (slots rowSize bStep : Nat) (stride : Int) (gStep : Nat) : Prop where
  babySteps : 1 ≤ bStep
  giantSteps : 1 ≤ gStep
  filled : bStep * (gStep - 1) < rowSize
  lastBlock : Kept (blockLength gStep (blockCount gStep - 1))
  blocks : Kept (blockCount gStep)
  aligned : Aligned slots stride gStep

/-- A transform sums its processed giant steps with their own rotations. -/
def Convolves (N rowSize bStep : Nat) (stride : Int) (gStep : Nat) (extended : Bool)
    (process : Slotted slots R → Option (Slotted slots R × List Int))
    (processed : (ZMod slots → R) → ZMod slots → R) : Prop :=
  ∀ (ctxt : ZMod slots → R) (indexes : List Int) (pts : List (Slotted slots R)),
    indexes.length = bStep → pts.length = rowSize → SameBasis extended pts →
      ∃ result, convolution N process ctxt rowSize bStep pts stride indexes gStep = some result ∧
        result.vector = giantSum stride gStep fun giant =>
          processed (innerSum ctxt bStep pts indexes giant)

variable {process : Slotted slots R → Option (Slotted slots R × List Int)}
  {processed : (ZMod slots → R) → ZMod slots → R} {extra : List Int} {rowSize bStep gStep : Nat}
  {stride : Int} {extended : Bool}

omit [CommRing R] in
theorem SameBasis.ext {pts : List (Slotted slots R)} (same : SameBasis extended pts)
    (rows : pts.length = rowSize) (nonempty : 0 < rowSize) :
    (bStep ≠ 1 && pts.all Slotted.modUp : Bool) = (bStep ≠ 1 && extended : Bool) := by
  rcases same with rfl | equal
  · rw [List.length_nil] at rows
    omega
  · rw [equal]

theorem ConvolutionProper.convolves (proper : ConvolutionProper slots rowSize bStep stride gStep)
    (positive : 0 < slots) (divides : slots ∣ N / 2)
    (processes : Processes process (bStep ≠ 1 && extended) processed extra)
    (allowed : (bStep ≠ 1 && extended : Bool) = true → (slots : Int) ∣ stride) :
    Convolves N rowSize bStep stride gStep extended process processed := by
  intro ctxt indexes pts rotations rows same
  have nonempty : 0 < rowSize := Nat.zero_lt_of_lt proper.filled
  have basis : (bStep ≠ 1 && pts.all Slotted.modUp : Bool) = (bStep ≠ 1 && extended : Bool) :=
    same.ext rows nonempty
  refine ⟨_, convolution_eq positive divides ctxt rows rotations proper.babySteps
    proper.giantSteps proper.filled basis processes allowed, ?_⟩
  exact convolved_eq proper.giantSteps proper.lastBlock proper.blocks proper.aligned _

/-- One giant step that fails makes the transform fail. -/
theorem convolution_none (ctxt : ZMod slots → R) {pts : List (Slotted slots R)}
    {indexes : List Int} {blockIdx j : Nat} (inside : blockIdx < blockCount gStep)
    (below : j < blockLength gStep blockIdx)
    (fails : convolutionStep N process (indexes.map (rotateHoisted N ctxt)) rowSize bStep pts
      (bStep ≠ 1 && pts.all Slotted.modUp) stride (blockIdx * INTERNAL_GSTEP)
      (blockLength gStep blockIdx) j = none) :
    convolution N process ctxt rowSize bStep pts stride indexes gStep = none := by
  have block : convolutionBlock N process (indexes.map (rotateHoisted N ctxt)) rowSize bStep pts
      (bStep ≠ 1 && pts.all Slotted.modUp) stride gStep blockIdx = none := by
    rw [convolutionBlock]
    have results := PartialLists.mapM_eq_none (List.mem_range.mpr below) fails
    exact Option.bind_eq_none_iff.mpr fun found ran => by
      rw [blockLength] at results
      rw [results] at ran
      cases ran
  have blocks := PartialLists.mapM_eq_none (List.mem_range.mpr inside) block
  rw [convolution]
  by_cases rejected : pts.length ≠ rowSize ∨ indexes.length ≠ bStep
  · rw [if_pos rejected]
    rfl
  · rw [if_neg rejected]
    exact Option.bind_eq_none_iff.mpr fun found ran => by
      rw [blockCount] at blocks
      rw [blocks] at ran
      cases ran

/-- Without giant steps there is no block to return. -/
theorem convolution_empty (ctxt : ZMod slots → R) (pts : List (Slotted slots R))
    (indexes : List Int) :
    convolution N process ctxt rowSize bStep pts stride indexes 0 = none := by
  rw [convolution]
  by_cases rejected : pts.length ≠ rowSize ∨ indexes.length ≠ bStep
  · rw [if_pos rejected]
    rfl
  · rw [if_neg rejected]
    rfl

/-- A term of a giant step and a step of the block that computes it correspond. -/
theorem giant_placed {giant : Nat} (inside : giant < gStep) :
    giant / INTERNAL_GSTEP < blockCount gStep ∧
      giant % INTERNAL_GSTEP < blockLength gStep (giant / INTERNAL_GSTEP) ∧
      giant / INTERNAL_GSTEP * INTERNAL_GSTEP + giant % INTERNAL_GSTEP = giant := by
  simp only [blockCount, blockLength, INTERNAL_GSTEP]
  omega

/-- These plaintexts hold one vector at one place. -/
def singlePts (rowSize place : Nat) (vector : ZMod slots → R) (extended : Bool) :
    List (Slotted slots R) :=
  (List.range rowSize).map fun k => ⟨if k = place then vector else 0, extended⟩

theorem singlePts_length (place : Nat) (vector : ZMod slots → R) :
    (singlePts rowSize place vector extended).length = rowSize := by
  rw [singlePts, List.length_map, List.length_range]

theorem singlePts_basis (place : Nat) (vector : ZMod slots → R) :
    SameBasis extended (singlePts rowSize place vector extended) := by
  cases rowSize with
  | zero => exact .inl rfl
  | succ rest =>
      right
      rw [singlePts, List.all_map, List.range_succ_eq_map]
      cases extended <;> simp

theorem innerSum_single (babySteps : 1 ≤ bStep) {giant : Nat} (placed : bStep * giant < rowSize)
    (vector : ZMod slots → R) (other : Nat) :
    innerSum (1 : ZMod slots → R) bStep (singlePts rowSize (bStep * giant) vector extended)
      (List.replicate bStep 0) other = if other = giant then vector else 0 := by
  have value (i : Nat) : ((singlePts rowSize (bStep * giant) vector extended).getD
      (bStep * other + i) ⟨0, false⟩).vector =
        if bStep * other + i = bStep * giant then vector else 0 := by
    rw [singlePts, List.getD_eq_getElem?_getD, List.getElem?_map]
    by_cases within : bStep * other + i < rowSize
    · rw [List.getElem?_range within]
      rfl
    · rw [List.getElem?_eq_none (by rw [List.length_range]; omega), if_neg (by omega)]
      rfl
  have ones (index : Int) : rotateSlots (1 : ZMod slots → R) index = 1 := rfl
  simp only [innerSum, value, ones, one_mul]
  by_cases same : other = giant
  · rw [if_pos same, Finset.sum_eq_single_of_mem 0 (Finset.mem_range.mpr babySteps),
      if_pos (by rw [same, Nat.add_zero])]
    intro i _ later
    rw [if_neg (by rw [same]; omega)]
  · rw [if_neg same]
    apply Finset.sum_eq_zero
    intro i inside
    rw [Finset.mem_range] at inside
    rw [if_neg]
    intro equal
    apply same
    have quotient := congrArg (· / bStep) equal
    simpa only [Nat.mul_add_div babySteps, Nat.div_eq_of_lt inside, Nat.add_zero,
      Nat.mul_div_cancel_left _ babySteps] using quotient

section Ran

variable {ctxt : ZMod slots → R} {pts : List (Slotted slots R)} {indexes : List Int}
  {result : Issued slots R}
  (ran : convolution N process ctxt rowSize bStep pts stride indexes gStep = some result)

include ran

theorem convolution_lengths : pts.length = rowSize ∧ indexes.length = bStep := by
  by_contra wrong
  rw [convolution, if_pos (by rwa [not_and_or] at wrong)] at ran
  cases ran

theorem convolution_giantSteps : 1 ≤ gStep := by
  by_contra none
  obtain rfl : gStep = 0 := by omega
  rw [convolution_empty] at ran
  cases ran

/-- A transform that returns runs every giant step. -/
theorem convolution_step {giant : Nat} (inside : giant < gStep) :
    convolutionStep N process (indexes.map (rotateHoisted N ctxt)) rowSize bStep pts
      (bStep ≠ 1 && pts.all Slotted.modUp) stride (giant / INTERNAL_GSTEP * INTERNAL_GSTEP)
      (blockLength gStep (giant / INTERNAL_GSTEP)) (giant % INTERNAL_GSTEP) ≠ none := by
  intro fails
  obtain ⟨block, below, _⟩ := giant_placed inside
  rw [convolution_none ctxt block below fails] at ran
  cases ran

theorem convolution_filled : 1 ≤ bStep ∧ bStep * (gStep - 1) < rowSize := by
  have giantSteps := convolution_giantSteps ran
  by_contra empty
  have last : gStep - 1 < gStep := by omega
  apply convolution_step ran last
  rw [convolutionStep, DotProductPtInternal, (giant_placed last).2.2, if_pos]
  · rfl
  · rw [not_and_or] at empty
    omega

/-- The last giant step processes the sum of its terms and rotates it by the stride. -/
theorem convolution_lastStep (divides : slots ∣ N / 2) :
    (process ⟨innerSum ctxt bStep pts indexes (gStep - 1),
      (bStep ≠ 1 && pts.all Slotted.modUp : Bool)⟩).bind
        (fun processed => rotateGiant N processed.1 stride) ≠ none := by
  obtain ⟨babySteps, filled⟩ := convolution_filled ran
  obtain ⟨rows, rotations⟩ := convolution_lengths ran
  have giantSteps := convolution_giantSteps ran
  have last : gStep - 1 < gStep := by omega
  have one : blockLength gStep ((gStep - 1) / INTERNAL_GSTEP) - (gStep - 1) % INTERNAL_GSTEP = 1 := by
    simp only [blockLength, INTERNAL_GSTEP]
    omega
  intro fails
  apply convolution_step ran last
  rw [convolutionStep, (giant_placed last).2.2,
    DotProductPtInternal_eq divides ctxt rows rotations babySteps filled, one, Nat.cast_one, mul_one]
  cases processed : process ⟨innerSum ctxt bStep pts indexes (gStep - 1),
      (bStep ≠ 1 && pts.all Slotted.modUp : Bool)⟩ with
  | none => simp only [Option.bind_eq_bind, Option.bind_some, processed, Option.bind_none]
  | some after =>
      rw [processed, Option.bind_some] at fails
      simp only [Option.bind_eq_bind, Option.bind_some, processed, fails, Option.bind_none]

theorem convolution_allowed (positive : 0 < slots) (divides : slots ∣ N / 2)
    (processes : Processes process (bStep ≠ 1 && pts.all Slotted.modUp) processed extra)
    (extending : (bStep ≠ 1 && pts.all Slotted.modUp : Bool) = true) : (slots : Int) ∣ stride := by
  by_contra proper
  apply convolution_lastStep ran divides
  rw [processes.runs]
  exact rotateGiant_none positive divides extending proper

/-- A transform that returns gives the fold of its blocks. -/
theorem convolution_result (positive : 0 < slots) (divides : slots ∣ N / 2)
    (processes : Processes process (bStep ≠ 1 && pts.all Slotted.modUp) processed extra) :
    result = {
      vector := convolved stride gStep fun giant => processed (innerSum ctxt bStep pts indexes giant)
      rotations := (List.range (blockCount gStep)).flatMap
          (blockRotations slots extra stride gStep) ++ chainRotations slots stride gStep } := by
  obtain ⟨babySteps, filled⟩ := convolution_filled ran
  obtain ⟨rows, rotations⟩ := convolution_lengths ran
  rw [convolution_eq positive divides ctxt rows rotations babySteps (convolution_giantSteps ran)
    filled rfl processes (convolution_allowed ran positive divides processes)] at ran
  exact (Option.some.inj ran).symm

end Ran

/-- A right transform returns on plaintexts that hold one vector at one place. -/
theorem Convolves.runs (right : Convolves N rowSize bStep stride gStep extended process processed)
    (ctxt : ZMod slots → R) (place : Nat) (vector : ZMod slots → R) :
    ∃ result, convolution N process ctxt rowSize bStep (singlePts rowSize place vector extended)
        stride (List.replicate bStep 0) gStep = some result ∧
      (bStep ≠ 1 && (singlePts rowSize place vector extended).all Slotted.modUp : Bool) =
        (bStep ≠ 1 && extended : Bool) ∧
      result.vector = giantSum stride gStep fun giant => processed (innerSum ctxt bStep
        (singlePts rowSize place vector extended) (List.replicate bStep 0) giant) := by
  obtain ⟨result, ran, summed⟩ := right ctxt (List.replicate bStep 0)
    (singlePts rowSize place vector extended) List.length_replicate (singlePts_length _ _)
    (singlePts_basis _ _)
  refine ⟨result, ran, ?_, summed⟩
  exact (singlePts_basis place vector).ext (singlePts_length place vector)
    (Nat.zero_lt_of_lt (convolution_filled ran).2)

theorem Convolves.singles [Nontrivial R] (positive : 0 < slots) (divides : slots ∣ N / 2)
    (processes : Processes process (bStep ≠ 1 && extended) processed extra)
    {vector : ZMod slots → R} (target : processed vector = Pi.single 0 1)
    (zero : processed 0 = 0)
    (right : Convolves N rowSize bStep stride gStep extended process processed) :
    RightForSingles slots R stride gStep := by
  intro giant inside
  obtain ⟨result, ran, basis, summed⟩ := right.runs 1 (bStep * giant) vector
  obtain ⟨babySteps, filled⟩ := convolution_filled ran
  have placed : bStep * giant < rowSize := by
    have order : bStep * giant ≤ bStep * (gStep - 1) := Nat.mul_le_mul_left _ (by omega)
    omega
  have terms : (fun other => processed (innerSum 1 bStep
      (singlePts rowSize (bStep * giant) vector extended) (List.replicate bStep 0) other)) =
        singleTerm slots R giant := by
    funext other
    rw [innerSum_single babySteps placed, singleTerm]
    by_cases same : other = giant
    · rw [if_pos same, target, same, Pi.single_eq_same]
    · rw [if_neg same, zero, Pi.single_eq_of_ne same]
  rw [convolution_result ran positive divides (basis ▸ processes), terms] at summed
  exact summed

/-- A transform whose process has a preimage of a single slot is right exactly where it is proper. -/
theorem convolves_iff [Nontrivial R] (positive : 0 < slots) (divides : slots ∣ N / 2)
    (processes : Processes process (bStep ≠ 1 && extended) processed extra)
    {vector : ZMod slots → R} (target : processed vector = Pi.single 0 1)
    (zero : processed 0 = 0) :
    Convolves N rowSize bStep stride gStep extended process processed ↔
      ConvolutionProper slots rowSize bStep stride gStep ∧
        ((bStep ≠ 1 && extended : Bool) = true → (slots : Int) ∣ stride) := by
  constructor
  · intro right
    have singles := right.singles positive divides processes target zero
    obtain ⟨result, ran, basis, _⟩ := right.runs 0 0 0
    obtain ⟨babySteps, filled⟩ := convolution_filled ran
    have giantSteps := convolution_giantSteps ran
    have allowed := convolution_allowed ran positive divides (basis ▸ processes)
    rw [basis] at allowed
    exact ⟨⟨babySteps, giantSteps, filled, singles.lastBlock giantSteps, singles.blocks giantSteps,
      singles.aligned giantSteps⟩, allowed⟩
  · rintro ⟨proper, allowed⟩
    exact proper.convolves positive divides processes allowed

/-- A right transform processes the result of a giant step. -/
theorem Convolves.processed_some (divides : slots ∣ N / 2)
    (right : Convolves N rowSize bStep stride gStep extended process processed) :
    ∃ vector, process ⟨vector, (bStep ≠ 1 && extended : Bool)⟩ ≠ none := by
  obtain ⟨result, ran, basis, _⟩ := right.runs 0 0 0
  have step := convolution_lastStep ran divides
  rw [basis] at step
  refine ⟨innerSum 0 bStep (singlePts rowSize 0 0 extended) (List.replicate bStep 0) (gStep - 1), ?_⟩
  intro fails
  apply step
  rw [fails, Option.bind_none]

/-- This is what the mask sweep makes of the sum of a giant step. -/
def swept (mask : ZMod slots → R) (maskRotationStride : Int) (sum : ZMod slots → R) :
    ZMod slots → R :=
  (sum + rotateSlots sum maskRotationStride + rotateSlots sum (2 * maskRotationStride)) * mask

theorem maskSweep_eq (positive : 0 < slots) (divides : slots ∣ N / 2) (mask : ZMod slots → R)
    {maskRotationStride : Int} (proper : ¬(slots : Int) ∣ maskRotationStride)
    (vector : ZMod slots → R) :
    maskSweep N mask maskRotationStride ⟨vector, false⟩ = some
      (⟨swept mask maskRotationStride vector, false⟩, [maskRotationStride, maskRotationStride]) := by
  have rotated (operand : ZMod slots → R) :
      (⟨operand, false⟩ : Slotted slots R).rotate N maskRotationStride =
        some ⟨rotateSlots operand maskRotationStride, false⟩ := by
    rw [Slotted.rotate, if_neg Bool.false_ne_true,
      rotate_of_not_dvd positive divides operand proper]
    rfl
  rw [maskSweep, rotated]
  simp only [Option.bind_eq_bind, Option.bind_some, rotated]
  rw [swept, two_mul, ← SlotRotation.rotateSlots_rotateSlots]
  rfl

/-- The sweep rejects an extended result and a trivial rotation. -/
theorem maskSweep_succeeds (positive : 0 < slots) (divides : slots ∣ N / 2)
    {mask : ZMod slots → R} {maskRotationStride : Int} {result : Slotted slots R}
    (runs : maskSweep N mask maskRotationStride result ≠ none) :
    result.modUp = false ∧ ¬(slots : Int) ∣ maskRotationStride := by
  constructor
  · rw [← Bool.not_eq_true]
    intro extending
    apply runs
    rw [maskSweep, Slotted.rotate, if_pos extending]
    rfl
  · intro trivial
    apply runs
    rw [maskSweep, Slotted.rotate, rotate_of_dvd positive divides _ trivial]
    cases result.modUp <;> rfl

theorem swept_zero (mask : ZMod slots → R) (maskRotationStride : Int) :
    swept mask maskRotationStride 0 = 0 := by
  simp only [swept, rotateSlots_zero_vector, add_zero, zero_mul]

/-- A single slot is swept to one of the three places that the sweep adds up. -/
theorem swept_single {maskRotationStride : Int}
    (proper : ¬(slots : Int) ∣ maskRotationStride) :
    swept (Pi.single 0 1) maskRotationStride
      (Pi.single (maskRotationStride : ZMod slots) (1 : R)) = Pi.single 0 1 := by
  have other : (maskRotationStride : ZMod slots) ≠ 0 := by
    rwa [Ne, ZMod.intCast_zmod_eq_zero_iff_dvd]
  funext slot
  by_cases first : slot = 0
  · have double : (0 : ZMod slots) + ((2 * maskRotationStride : Int) : ZMod slots) ≠
        maskRotationStride := by
      rw [two_mul, Int.cast_add, zero_add, Ne, add_eq_left]
      exact other
    rw [first, swept, Pi.mul_apply, Pi.add_apply, Pi.add_apply, rotateSlots, rotateSlots,
      Pi.single_eq_of_ne (Ne.symm other), zero_add (maskRotationStride : ZMod slots),
      Pi.single_eq_same, Pi.single_eq_of_ne double, Pi.single_eq_same, zero_add, add_zero, mul_one]
  · rw [swept, Pi.mul_apply, Pi.single_eq_of_ne first, mul_zero]

/-- The transform sums its giant steps with their own rotations. -/
def ConvolutionRight (slots : Nat) (R : Type) [CommRing R] (N rowSize bStep : Nat) (stride : Int)
    (gStep : Nat) (extended : Bool) : Prop :=
  ∀ (ctxt : ZMod slots → R) (indexes : List Int) (pts : List (Slotted slots R)),
    indexes.length = bStep → pts.length = rowSize → SameBasis extended pts →
      ∃ result, ConvolutionTransform N ctxt rowSize bStep pts stride indexes gStep = some result ∧
        result.vector = giantSum stride gStep fun giant => innerSum ctxt bStep pts indexes giant

/-- The special transform sweeps every giant step before its rotation. -/
def SpecialConvolutionRight (slots : Nat) (R : Type) [CommRing R] (N rowSize bStep : Nat)
    (stride maskRotationStride : Int) (gStep : Nat) (extended : Bool) : Prop :=
  ∀ (mask ctxt : ZMod slots → R) (indexes : List Int) (pts : List (Slotted slots R)),
    indexes.length = bStep → pts.length = rowSize → SameBasis extended pts →
      ∃ result, SpecialConvolutionTransform N ctxt rowSize bStep pts mask stride maskRotationStride
          indexes gStep = some result ∧
        result.vector = giantSum stride gStep fun giant =>
          swept mask maskRotationStride (innerSum ctxt bStep pts indexes giant)

theorem convolutionRight_iff [Nontrivial R] (positive : 0 < slots) (divides : slots ∣ N / 2) :
    ConvolutionRight slots R N rowSize bStep stride gStep extended ↔
      ConvolutionProper slots rowSize bStep stride gStep ∧
        (extended = true → bStep = 1 ∨ (slots : Int) ∣ stride) := by
  have processes : Processes (fun result : Slotted slots R => some (result, []))
      (bStep ≠ 1 && extended) id [] := ⟨fun vector => rfl⟩
  have allowed : ((bStep ≠ 1 && extended : Bool) = true → (slots : Int) ∣ stride) ↔
      (extended = true → bStep = 1 ∨ (slots : Int) ∣ stride) := by
    rw [Bool.and_eq_true, decide_eq_true_iff]
    tauto
  rw [← allowed]
  exact convolves_iff positive divides processes rfl rfl

theorem specialConvolutionRight_iff [Nontrivial R] (positive : 0 < slots)
    (divides : slots ∣ N / 2) (maskRotationStride : Int) :
    SpecialConvolutionRight slots R N rowSize bStep stride maskRotationStride gStep extended ↔
      ConvolutionProper slots rowSize bStep stride gStep ∧ (extended = true → bStep = 1) ∧
        ¬(slots : Int) ∣ maskRotationStride := by
  constructor
  · intro right
    have convolves (mask : ZMod slots → R) : Convolves N rowSize bStep stride gStep extended
        (maskSweep N mask maskRotationStride) (swept mask maskRotationStride) := right mask
    obtain ⟨vector, runs⟩ := (convolves 0).processed_some divides
    obtain ⟨regular, proper⟩ := maskSweep_succeeds positive divides runs
    change (bStep ≠ 1 && extended : Bool) = false at regular
    have processes : Processes (maskSweep N (Pi.single (0 : ZMod slots) (1 : R)) maskRotationStride)
        (bStep ≠ 1 && extended) (swept (Pi.single 0 (1 : R)) maskRotationStride)
          [maskRotationStride, maskRotationStride] := by
      rw [regular]
      exact ⟨maskSweep_eq positive divides (Pi.single 0 1) proper⟩
    have only := (convolves_iff positive divides processes (swept_single proper)
      (swept_zero _ _)).mp (convolves (Pi.single 0 1))
    refine ⟨only.1, ?_, proper⟩
    intro extending
    rw [extending, Bool.and_true, decide_eq_false_iff_not, not_not] at regular
    exact regular
  · rintro ⟨proper, regular, distinct⟩ mask
    have basis : (bStep ≠ 1 && extended : Bool) = false := by
      rw [Bool.and_eq_false_iff, decide_eq_false_iff_not, not_not]
      cases extended with
      | false => exact .inr rfl
      | true => exact .inl (regular rfl)
    have processes : Processes (maskSweep N mask maskRotationStride)
        (bStep ≠ 1 && extended) (swept mask maskRotationStride)
          [maskRotationStride, maskRotationStride] := by
      rw [basis]
      exact ⟨maskSweep_eq positive divides mask distinct⟩
    apply proper.convolves positive divides processes
    intro extending
    rw [basis] at extending
    cases extending

end Contract

/-- Both transforms are right exactly where no giant step is empty, lost or misplaced. -/
theorem convolutions_right_iff (R : Type) [CommRing R] [Nontrivial R]
    (slots N rowSize bStep gStep : Nat) (stride maskRotationStride : Int) (extended : Bool)
    (positive : 0 < slots) (divides : slots ∣ N / 2) :
    (ConvolutionRight slots R N rowSize bStep stride gStep extended ↔
      ConvolutionProper slots rowSize bStep stride gStep ∧
        (extended = true → bStep = 1 ∨ (slots : Int) ∣ stride)) ∧
    (SpecialConvolutionRight slots R N rowSize bStep stride maskRotationStride gStep extended ↔
      ConvolutionProper slots rowSize bStep stride gStep ∧ (extended = true → bStep = 1) ∧
        ¬(slots : Int) ∣ maskRotationStride) :=
  ⟨convolutionRight_iff positive divides,
    specialConvolutionRight_iff positive divides maskRotationStride⟩

theorem convolutions_right_iff_two :
    (ConvolutionRight 8 Int 16 6 3 1 2 false ↔ ConvolutionProper 8 6 3 1 2 ∧
      (false = true → 3 = 1 ∨ (8 : Int) ∣ 1)) ∧
    (SpecialConvolutionRight 8 Int 16 6 3 1 1 2 false ↔
      ConvolutionProper 8 6 3 1 2 ∧ (false = true → 3 = 1) ∧ ¬(8 : Int) ∣ 1) :=
  convolutions_right_iff Int 8 16 6 3 2 1 1 false (by decide) (by decide)

/-- Of six giant steps the fold loses two. -/
theorem convolution_six_wrong : ¬ConvolutionRight 8 Int 16 6 1 1 6 false := by
  intro right
  have proper := ((convolutionRight_iff (by decide) (by decide)).mp right).1
  have six : blockLength 6 (blockCount 6 - 1) = 6 := by decide
  rcases six ▸ proper.lastBlock with odd | ⟨exponent, power⟩
  · omega
  · rcases Nat.lt_or_ge exponent 3 with small | large
    · interval_cases exponent <;> omega
    · have order := Nat.pow_le_pow_right Nat.two_pos large
      omega

section Keys

variable {slots N : Nat} {R : Type} [CommRing R] {gStep : Nat} {stride : Int}

/-- A run of the transform without processing issues its block and chain rotations. -/
theorem ConvolutionTransform_rotations (positive : 0 < slots) (divides : slots ∣ N / 2)
    {ctxt : ZMod slots → R} {rowSize bStep : Nat} {pts : List (Slotted slots R)}
    {indexes : List Int} {result : Issued slots R}
    (ran : ConvolutionTransform N ctxt rowSize bStep pts stride indexes gStep = some result) :
    result.rotations = (List.range (blockCount gStep)).flatMap
      (blockRotations slots [] stride gStep) ++ chainRotations slots stride gStep := by
  have processes : Processes (fun result : Slotted slots R => some (result, []))
      (bStep ≠ 1 && pts.all Slotted.modUp) id [] := ⟨fun vector => rfl⟩
  rw [convolution_result ran positive divides processes]

theorem mem_issuedRotation {rotation index : Int} :
    index ∈ issuedRotation slots rotation ↔ index = rotation ∧ ¬(slots : Int) ∣ rotation := by
  rw [issuedRotation]
  by_cases trivial : (slots : Int) ∣ rotation
  · simp [trivial]
  · simp [trivial]

/-- The rotations inside blocks are by up to eight strides and not more than there are steps. -/
theorem mem_blockRotations {index : Int} :
    index ∈ (List.range (blockCount gStep)).flatMap (blockRotations slots [] stride gStep) ↔
      ∃ k : Nat, 1 ≤ k ∧ k ≤ min gStep INTERNAL_GSTEP ∧ index = stride * k ∧
        ¬(slots : Int) ∣ stride * k := by
  constructor
  · intro member
    obtain ⟨blockIdx, _, within⟩ := List.mem_flatMap.mp member
    obtain ⟨j, below, issued⟩ := List.mem_flatMap.mp within
    rw [List.nil_append, mem_issuedRotation, blockRotation] at issued
    rw [List.mem_range] at below
    refine ⟨blockLength gStep blockIdx - j, by omega, ?_, issued⟩
    rw [blockLength]
    omega
  · rintro ⟨k, positive, few, issued⟩
    have length : blockLength gStep 0 = min gStep INTERNAL_GSTEP := by
      simp only [blockLength, INTERNAL_GSTEP]
      omega
    have block : 0 < blockCount gStep := by
      simp only [blockCount, INTERNAL_GSTEP] at few ⊢
      omega
    apply List.mem_flatMap.mpr
    refine ⟨0, List.mem_range.mpr block, List.mem_flatMap.mpr ?_⟩
    refine ⟨min gStep INTERNAL_GSTEP - k, List.mem_range.mpr (by omega), ?_⟩
    rw [List.nil_append, mem_issuedRotation, blockRotation, length,
      show min gStep INTERNAL_GSTEP - (min gStep INTERNAL_GSTEP - k) = k by omega]
    exact issued

theorem mem_chainRotations {index : Int} (issued : index ∈ chainRotations slots stride gStep) :
    ∃ k : Nat, 1 ≤ k ∧ k < blockCount gStep ∧ index = INTERNAL_GSTEP * stride * k := by
  obtain ⟨blockIdx, listed, single⟩ := List.mem_flatMap.mp issued
  rw [mem_issuedRotation, chainRotation] at single
  refine ⟨blockCount gStep - 1 - blockIdx, ?_, ?_, ?_⟩
  · by_contra last
    rw [show blockCount gStep - 1 - blockIdx = 0 by omega] at single
    simp at single
  · rw [List.mem_range] at listed
    omega
  · rw [single.1]
    ring

/-- The list stops one short of the rotations of a full block. -/
theorem mem_GetConvolutionTransformRotationIndices {rowSize bStep : Nat} {index : Int} :
    index ∈ GetConvolutionTransformRotationIndices rowSize bStep stride gStep ↔
      (∃ k : Nat, 1 ≤ k ∧ k < min gStep INTERNAL_GSTEP ∧ index = stride * k) ∨
        ∃ k : Nat, 1 ≤ k ∧ k < blockCount gStep ∧ index = INTERNAL_GSTEP * stride * k := by
  have counted (factor : Int) (limit : Nat) :
      index ∈ (List.range (limit - 1)).map (fun k : Nat => factor * ((k + 1 : Nat) : Int)) ↔
        ∃ k : Nat, 1 ≤ k ∧ k < limit ∧ index = factor * k := by
    rw [List.mem_map]
    constructor
    · rintro ⟨k, listed, rfl⟩
      rw [List.mem_range] at listed
      exact ⟨k + 1, by omega, by omega, rfl⟩
    · rintro ⟨k, started, below, rfl⟩
      refine ⟨k - 1, List.mem_range.mpr (by omega), ?_⟩
      rw [Nat.sub_add_cancel started]
  rw [GetConvolutionTransformRotationIndices, List.mem_append, counted]
  apply or_congr_right
  change index ∈ (if 1 < blockCount gStep then _ else _) ↔ _
  by_cases several : 1 < blockCount gStep
  · rw [if_pos several]
    exact counted (INTERNAL_GSTEP * stride) (blockCount gStep)
  · rw [if_neg several]
    constructor
    · intro member
      cases member
    · rintro ⟨k, started, below, _⟩
      omega

/-- Every proper rotation of a run is in the list. -/
def RotationsListed (slots : Nat) (R : Type) [CommRing R] (N : Nat) (stride : Int) (gStep : Nat) :
    Prop :=
  ∀ (rowSize bStep : Nat) (ctxt : ZMod slots → R) (pts : List (Slotted slots R))
    (indexes : List Int) (result : Issued slots R),
    ConvolutionTransform N ctxt rowSize bStep pts stride indexes gStep = some result →
      ∀ index ∈ result.rotations,
        index ∈ GetConvolutionTransformRotationIndices rowSize bStep stride gStep

/-- Every proper rotation of a run agrees with one of the list modulo the number of slots. -/
def RotationsServed (slots : Nat) (R : Type) [CommRing R] (N : Nat) (stride : Int) (gStep : Nat) :
    Prop :=
  ∀ (rowSize bStep : Nat) (ctxt : ZMod slots → R) (pts : List (Slotted slots R))
    (indexes : List Int) (result : Issued slots R),
    ConvolutionTransform N ctxt rowSize bStep pts stride indexes gStep = some result →
      ∀ index ∈ result.rotations,
        ∃ listed ∈ GetConvolutionTransformRotationIndices rowSize bStep stride gStep,
          (slots : Int) ∣ index - listed

/-- Only the rotation by as many strides as there are steps can be missing. -/
theorem rotation_missing (positive : 0 < slots) (divides : slots ∣ N / 2)
    {ctxt : ZMod slots → R} {rowSize bStep : Nat} {pts : List (Slotted slots R)}
    {indexes : List Int} {result : Issued slots R}
    (ran : ConvolutionTransform N ctxt rowSize bStep pts stride indexes gStep = some result)
    {index : Int} (issued : index ∈ result.rotations) :
    index ∈ GetConvolutionTransformRotationIndices rowSize bStep stride gStep ∨
      (1 ≤ gStep ∧ gStep ≤ INTERNAL_GSTEP ∧ index = stride * gStep ∧
        ¬(slots : Int) ∣ stride * gStep) := by
  rw [ConvolutionTransform_rotations positive divides ran, List.mem_append] at issued
  rw [mem_GetConvolutionTransformRotationIndices]
  rcases issued with inBlock | inChain
  · obtain ⟨k, started, few, rfl, proper⟩ := mem_blockRotations.mp inBlock
    by_cases below : k < min gStep INTERNAL_GSTEP
    · exact .inl (.inl ⟨k, started, below, rfl⟩)
    · by_cases short : gStep ≤ INTERNAL_GSTEP
      · obtain rfl : k = gStep := by omega
        exact .inr ⟨started, short, rfl, proper⟩
      · have full : k = INTERNAL_GSTEP := by omega
        refine .inl (.inr ⟨1, le_rfl, ?_, ?_⟩)
        · simp only [blockCount, INTERNAL_GSTEP] at short ⊢
          omega
        · rw [full, Nat.cast_one, mul_one, mul_comm]
  · exact .inl (.inr (mem_chainRotations inChain))

/-- A transform of regular plaintexts with one baby step issues the longest rotation of a block. -/
theorem rotation_issued (positive : 0 < slots) (divides : slots ∣ N / 2) (giantSteps : 1 ≤ gStep)
    (short : gStep ≤ INTERNAL_GSTEP) (proper : ¬(slots : Int) ∣ stride * gStep) :
    ∃ result, ConvolutionTransform N (0 : ZMod slots → R) gStep 1
        (singlePts gStep 0 0 false) stride [0] gStep = some result ∧
      stride * gStep ∈ result.rotations := by
  have processes : Processes (fun result : Slotted slots R => some (result, []))
      false id [] := ⟨fun vector => rfl⟩
  have filled : 1 * (gStep - 1) < gStep := by omega
  have allowed : false = true → (slots : Int) ∣ stride := fun extending =>
    absurd extending Bool.false_ne_true
  have rows : (singlePts gStep 0 (0 : ZMod slots → R) false).length = gStep := singlePts_length 0 0
  have accepted := convolution_eq positive divides (0 : ZMod slots → R) rows
    (rfl : [(0 : Int)].length = 1) le_rfl giantSteps filled rfl processes allowed
  refine ⟨_, accepted, ?_⟩
  rw [List.mem_append, mem_blockRotations]
  exact .inl ⟨gStep, giantSteps, by omega, rfl, proper⟩

theorem rotationsListed_iff (positive : 0 < slots) (divides : slots ∣ N / 2) :
    RotationsListed slots R N stride gStep ↔
      gStep = 0 ∨ INTERNAL_GSTEP < gStep ∨ (slots : Int) ∣ stride * gStep := by
  constructor
  · intro listed
    by_contra wrong
    rw [not_or, not_or, Nat.not_lt] at wrong
    obtain ⟨nonempty, short, proper⟩ := wrong
    have giantSteps : 1 ≤ gStep := by omega
    obtain ⟨result, ran, issued⟩ := @rotation_issued slots N R _ gStep stride positive divides
      giantSteps short proper
    rcases mem_GetConvolutionTransformRotationIndices.mp (listed _ _ _ _ _ _ ran _ issued) with
      ⟨k, _, below, same⟩ | ⟨k, started, below, _⟩
    · rcases mul_eq_mul_left_iff.mp same with equal | zero
      · have : gStep = k := by exact_mod_cast equal
        omega
      · rw [zero, zero_mul] at proper
        exact proper (dvd_zero _)
    · simp only [blockCount, INTERNAL_GSTEP] at below short
      omega
  · intro condition rowSize bStep ctxt pts indexes result ran index issued
    rcases rotation_missing positive divides ran issued with listed | ⟨giantSteps, short, _, proper⟩
    · exact listed
    · rcases condition with none | many | trivial
      · omega
      · omega
      · exact absurd trivial proper

theorem rotationsServed_iff (positive : 0 < slots) (divides : slots ∣ N / 2) :
    RotationsServed slots R N stride gStep ↔
      gStep = 0 ∨ INTERNAL_GSTEP < gStep ∨
        ∃ steps : Nat, 1 ≤ steps ∧ steps ≤ gStep ∧ (slots : Int) ∣ stride * steps := by
  constructor
  · intro served
    by_contra wrong
    rw [not_or, not_or, Nat.not_lt] at wrong
    obtain ⟨nonempty, short, distinct⟩ := wrong
    have giantSteps : 1 ≤ gStep := by omega
    have proper : ¬(slots : Int) ∣ stride * gStep := fun trivial =>
      distinct ⟨gStep, giantSteps, le_rfl, trivial⟩
    obtain ⟨result, ran, issued⟩ := @rotation_issued slots N R _ gStep stride positive divides
      giantSteps short proper
    obtain ⟨index, listed, same⟩ := served _ _ _ _ _ _ ran _ issued
    rcases mem_GetConvolutionTransformRotationIndices.mp listed with
      ⟨k, started, below, rfl⟩ | ⟨k, started, below, _⟩
    · apply distinct
      refine ⟨gStep - k, by omega, by omega, ?_⟩
      rw [Nat.cast_sub (by omega), mul_sub]
      exact same
    · simp only [blockCount, INTERNAL_GSTEP] at below short
      omega
  · intro condition rowSize bStep ctxt pts indexes result ran index issued
    rcases rotation_missing positive divides ran issued with
      listed | ⟨giantSteps, short, rfl, proper⟩
    · exact ⟨index, listed, by rw [sub_self]; exact dvd_zero _⟩
    · rcases condition with none | many | ⟨steps, started, few, trivial⟩
      · omega
      · omega
      · have less : steps ≠ gStep := by
          rintro rfl
          exact proper trivial
        refine ⟨stride * ((gStep - steps : Nat) : Int), ?_, ?_⟩
        · rw [mem_GetConvolutionTransformRotationIndices]
          exact .inl ⟨gStep - steps, by omega, by omega, rfl⟩
        · rw [Nat.cast_sub few, ← mul_sub, sub_sub_cancel]
          exact trivial

end Keys

/-- The list has all rotations of the transform exactly where its longest rotation is not needed. -/
theorem rotations_listed_iff (R : Type) [CommRing R] (slots N gStep : Nat) (stride : Int)
    (positive : 0 < slots) (divides : slots ∣ N / 2) :
    (RotationsListed slots R N stride gStep ↔
      gStep = 0 ∨ INTERNAL_GSTEP < gStep ∨ (slots : Int) ∣ stride * gStep) ∧
    (RotationsServed slots R N stride gStep ↔
      gStep = 0 ∨ INTERNAL_GSTEP < gStep ∨
        ∃ steps : Nat, 1 ≤ steps ∧ steps ≤ gStep ∧ (slots : Int) ∣ stride * steps) :=
  ⟨rotationsListed_iff positive divides, rotationsServed_iff positive divides⟩

theorem rotations_listed_iff_two :
    (RotationsListed 16 Int 64 1 2 ↔ 2 = 0 ∨ INTERNAL_GSTEP < 2 ∨ (16 : Int) ∣ 1 * 2) ∧
    (RotationsServed 16 Int 64 1 2 ↔ 2 = 0 ∨ INTERNAL_GSTEP < 2 ∨
      ∃ steps : Nat, 1 ≤ steps ∧ steps ≤ 2 ∧ (16 : Int) ∣ 1 * steps) :=
  rotations_listed_iff Int 16 64 2 1 (by decide) (by decide)

/-- Two giant steps need a rotation by two strides that the list does not have. -/
theorem rotations_two_missing :
    ¬RotationsListed 16 Int 64 1 2 ∧ ¬RotationsServed 16 Int 64 1 2 := by
  constructor
  · rw [rotationsListed_iff (by decide) (by decide)]
    decide
  · rw [rotationsServed_iff (by decide) (by decide)]
    rintro (zero | many | ⟨steps, started, few, trivial⟩)
    · cases zero
    · exact absurd many (by decide)
    · interval_cases steps
      · exact absurd trivial (by decide)
      · exact absurd trivial (by decide)

end Fideslib.LinearTransform
