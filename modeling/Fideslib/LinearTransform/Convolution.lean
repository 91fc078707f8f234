/-
This file models the convolution transforms, which fold their giant steps in blocks.
-/

import Fideslib.Library.DoublingLoops
import Fideslib.Library.PartialLists
import Fideslib.LinearTransform.BabyGiant

namespace Fideslib.LinearTransform

open SlotRotation (rotateSlots)

def INTERNAL_GSTEP : Nat := 8

/-- A ciphertext or a plaintext is in the extended basis or in the regular one. -/
structure Slotted (slots : Nat) (R : Type) where
  vector : ZMod slots → R
  modUp : Bool

section

variable {slots : Nat} {R : Type} [CommRing R]

namespace Slotted

/-- A sum is extended where one of its terms is. -/
def add (first second : Slotted slots R) : Slotted slots R :=
  { vector := first.vector + second.vector, modUp := first.modUp || second.modUp }

def multPt (operand : Slotted slots R) (mask : ZMod slots → R) : Slotted slots R :=
  { operand with vector := operand.vector * mask }

/-- An extended ciphertext is rejected. The result is in the regular basis. -/
def rotate (N : Nat) (operand : Slotted slots R) (index : Int) : Option (Slotted slots R) :=
  if operand.modUp then none
  else
    (LinearTransform.rotate N operand.vector index).map fun vector =>
      { vector := vector, modUp := false }

end Slotted

/-- The transforms skip a trivial giant step. -/
def rotateGiant (N : Nat) (result : Slotted slots R) (rotation : Int) :
    Option (Slotted slots R × List Int) :=
  if normalyzeIndex rotation slots N ≠ 0 then
    (result.rotate N rotation).map fun rotated => (rotated, [rotation])
  else
    some (result, [])

/-- A result takes the metadata of the first plaintext of its giant step, which must be there. -/
def DotProductPtInternal (fastRotation : List (ZMod slots → R)) (rowSize bStep : Nat)
    (pts : List (Slotted slots R)) (ext : Bool) (giant : Nat) : Option (Slotted slots R) :=
  if bStep = 0 ∨ rowSize ≤ bStep * giant then none
  else some {
    vector := ∑ i ∈ Finset.range bStep,
      if bStep * giant + i < rowSize then
        fastRotation.getD i 0 * (pts.getD (bStep * giant + i) ⟨0, false⟩).vector
      else 0
    modUp := ext }

/-- An even number of results is folded by halves and an odd number one by one. -/
def accumulateResults (results : List (Slotted slots R)) : Slotted slots R :=
  let result (place : Nat) := results.getD place ⟨0, false⟩
  if results.length % 2 = 0 then HalvingFold.fold Slotted.add results.length result
  else
    (List.range (results.length - 1)).foldl (fun total j => total.add (result (j + 1))) (result 0)

/-- A giant step is rotated by its distance to the end of the block. -/
def convolutionStep (N : Nat) (process : Slotted slots R → Option (Slotted slots R × List Int))
    (fastRotation : List (ZMod slots → R)) (rowSize bStep : Nat) (pts : List (Slotted slots R))
    (ext : Bool) (stride : Int) (blockStart currentBlockGStep j : Nat) :
    Option (Slotted slots R × List Int) := do
  let result ← DotProductPtInternal fastRotation rowSize bStep pts ext (blockStart + j)
  let processed ← process result
  let rotated ← rotateGiant N processed.1 (stride * ((currentBlockGStep - j : Nat) : Int))
  some (rotated.1, processed.2 ++ rotated.2)

def convolutionBlock (N : Nat) (process : Slotted slots R → Option (Slotted slots R × List Int))
    (fastRotation : List (ZMod slots → R)) (rowSize bStep : Nat) (pts : List (Slotted slots R))
    (ext : Bool) (stride : Int) (gStep blockIdx : Nat) : Option (Slotted slots R × List Int) := do
  let blockStart := blockIdx * INTERNAL_GSTEP
  let blockEnd := min (blockStart + INTERNAL_GSTEP) gStep
  let currentBlockGStep := blockEnd - blockStart
  let results ← (List.range currentBlockGStep).mapM
    (convolutionStep N process fastRotation rowSize bStep pts ext stride blockStart currentBlockGStep)
  some (accumulateResults (results.map Prod.fst), (results.map Prod.snd).flatten)

/-- The two transforms differ in what they do to the result of a dot product. -/
def convolution (N : Nat) (process : Slotted slots R → Option (Slotted slots R × List Int))
    (ctxt : ZMod slots → R) (rowSize bStep : Nat) (pts : List (Slotted slots R)) (stride : Int)
    (indexes : List Int) (gStep : Nat) : Option (Issued slots R) := do
  if pts.length ≠ rowSize ∨ indexes.length ≠ bStep then none
  let blockCount := (gStep + INTERNAL_GSTEP - 1) / INTERNAL_GSTEP
  let ext := bStep ≠ 1 && pts.all Slotted.modUp
  let fastRotation := indexes.map (rotateHoisted N ctxt)
  let blocks ← (List.range blockCount).mapM
    (convolutionBlock N process fastRotation rowSize bStep pts ext stride gStep)
  let blockResults ← (List.range blockCount).mapM fun blockIdx => do
    let block ← blocks[blockIdx]?
    if blockIdx < blockCount - 1 then
      rotateGiant N block.1 (((blockCount - 1 - blockIdx : Nat) : Int) * (INTERNAL_GSTEP * stride))
    else some (block.1, [])
  if blockCount = 0 then none
  some {
    vector := (accumulateResults (blockResults.map Prod.fst)).vector
    rotations := (blocks.map Prod.snd).flatten ++ (blockResults.map Prod.snd).flatten }

def ConvolutionTransform (N : Nat) (ctxt : ZMod slots → R) (rowSize bStep : Nat)
    (pts : List (Slotted slots R)) (stride : Int) (indexes : List Int) (gStep : Nat) :
    Option (Issued slots R) :=
  convolution N (fun result => some (result, [])) ctxt rowSize bStep pts stride indexes gStep

/-- Both mask rotations are issued without a test. -/
def maskSweep (N : Nat) (mask : ZMod slots → R) (maskRotationStride : Int)
    (result : Slotted slots R) : Option (Slotted slots R × List Int) := do
  let once ← result.rotate N maskRotationStride
  let twice ← once.rotate N maskRotationStride
  some (((result.add once).add twice).multPt mask, [maskRotationStride, maskRotationStride])

def SpecialConvolutionTransform (N : Nat) (ctxt : ZMod slots → R) (rowSize bStep : Nat)
    (pts : List (Slotted slots R)) (mask : ZMod slots → R) (stride maskRotationStride : Int)
    (indexes : List Int) (gStep : Nat) : Option (Issued slots R) :=
  convolution N (maskSweep N mask maskRotationStride) ctxt rowSize bStep pts stride indexes gStep

end

/-- The first two arguments of the source have no effect. -/
def GetConvolutionTransformRotationIndices (_rowSize _bStep : Nat) (stride : Int) (gStep : Nat) :
    List Int :=
  let maxIntra := min gStep INTERNAL_GSTEP
  let blockCount := (gStep + INTERNAL_GSTEP - 1) / INTERNAL_GSTEP
  ((List.range (maxIntra - 1)).map fun k : Nat => stride * ((k + 1 : Nat) : Int)) ++
    if 1 < blockCount then
      (List.range (blockCount - 1)).map fun k : Nat => INTERNAL_GSTEP * stride * ((k + 1 : Nat) : Int)
    else []

end Fideslib.LinearTransform
