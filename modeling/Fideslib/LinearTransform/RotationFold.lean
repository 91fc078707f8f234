/-
This file models the folds that accumulate and broadcast a ciphertext by rotations.
-/

import Fideslib.Library.DoublingLoops
import Fideslib.LinearTransform.BabyGiant

namespace Fideslib.LinearTransform

open SlotRotation (rotateSlots)

/-- A radix that is no power of two is rejected. -/
def checkBStep (bStep : Nat) (called : String) : Except String Unit :=
  if bStep < 2 ∨ bStep &&& (bStep - 1) ≠ 0 then
    .error (called ++ ": bStep must be a power of two >= 2, got " ++ toString bStep)
  else .ok ()

def logbStep (bStep : Nat) : Nat := Nat.size bStep - 1

/-- These are the values of an index that starts at its step and stays below a limit. -/
def strided (step limit : Nat) : List Nat :=
  ((List.range limit).map fun i => step * (i + 1)).takeWhile (· < limit)

/-- The rotations of one round count from the stride of the round. -/
def forwardIndexes (bStep limit s : Nat) : List Int :=
  (strided s (min limit (bStep * s))).map Nat.cast

/-- The last round of a broadcast rotates back by one less than a multiple of its stride. -/
def backwardIndexes (bStep outsize s : Nat) : List Int :=
  ((List.range bStep).map fun i : Nat => -(((i + 1) * s : Nat) : Int) + 1).filter
    fun idx => -idx < outsize

/-- The outer result is none where the fuel runs out. -/
def GetAccumulateRotationIndices (fuel bStep stride size : Nat) :
    Except String (Option (List Int)) := do
  checkBStep bStep "GetAccumulateRotationIndices"
  return ShiftLoop.run (stride * size) (logbStep bStep)
    (fun s indices => some (indices ++ forwardIndexes bStep (stride * size) s)) fuel stride []

/-- The counter of this loop has the stride inside, and its test multiplies by the stride again. -/
def GetbroadcastRotationIndices (fuel bStep initsize outsize : Nat) :
    Except String (Option (List Int)) := do
  checkBStep bStep "GetbroadcastRotationIndices"
  let size := outsize / initsize
  let stride := initsize
  return ShiftLoop.run (stride * size) (logbStep bStep)
    (fun s indices => some (indices ++
      if stride * size ≤ stride * s * bStep then backwardIndexes bStep outsize s
      else forwardIndexes bStep (stride * size) s)) fuel stride []

section

variable {slots : Nat} {R : Type} [CommRing R]

/-- All rotations of a round start from one vector. -/
def rotate_hoisted (N : Nat) (ctxt : Issued slots R) (indexes : List Int) :
    List (ZMod slots → R) :=
  indexes.map (rotateHoisted N ctxt.vector)

def accumulateRound (N bStep stride size s : Nat) (ctxt : Issued slots R) :
    Option (Issued slots R) :=
  let indexes := forwardIndexes bStep (stride * size) (stride * s)
  some {
    vector := ctxt.vector + (rotate_hoisted N ctxt indexes).sum
    rotations := ctxt.rotations ++ indexes }

/-- Nothing happens where a count is zero. -/
def Accumulate (fuel N : Nat) (ctxt : ZMod slots → R) (bStep stride size startFactor : Nat) :
    Except String (Option (Issued slots R)) := do
  checkBStep bStep "Accumulate"
  if startFactor = 0 ∨ size = 0 then return some ⟨ctxt, []⟩
  return ShiftLoop.run size (logbStep bStep) (accumulateRound N bStep stride size) fuel startFactor
    ⟨ctxt, []⟩

/-- The last round replaces the ciphertext by the sum of its rotations, of which it reads two. -/
def broadcastRound (N bStep stride size outsize s : Nat) (ctxt : Issued slots R) :
    Option (Issued slots R) :=
  if size ≤ s * bStep then
    let indexes := backwardIndexes bStep outsize (stride * s)
    match rotate_hoisted N ctxt indexes with
    | first :: second :: rest =>
        some { vector := first + second + rest.sum, rotations := ctxt.rotations ++ indexes }
    | _ => none
  else
    let indexes := forwardIndexes bStep (stride * size) (stride * s)
    some {
      vector := ctxt.vector + (rotate_hoisted N ctxt indexes).sum
      rotations := ctxt.rotations ++ indexes }

def Broadcast (fuel N : Nat) (ctxt : ZMod slots → R) (bStep initsize outsize : Nat) :
    Except String (Option (Issued slots R)) := do
  checkBStep bStep "Broadcast"
  let size := outsize / initsize
  let stride := initsize
  return ShiftLoop.run size (logbStep bStep) (broadcastRound N bStep stride size outsize) fuel 1
    ⟨ctxt, []⟩

end

section Indexes

theorem strided_eq {step limit : Nat} (positive : 0 < step) :
    strided step limit = (List.range ((limit - 1) / step)).map fun i => step * (i + 1) := by
  have below (i : Nat) : step * (i + 1) < limit ↔ i < (limit - 1) / step := by
    have count : i + 1 ≤ (limit - 1) / step ↔ (i + 1) * step ≤ limit - 1 :=
      Nat.le_div_iff_mul_le positive
    rw [Nat.mul_comm step]
    have large : 0 < (i + 1) * step := Nat.mul_pos (Nat.succ_pos _) positive
    omega
  have taken : ∀ count bound, bound ≤ count →
      (List.range count).takeWhile (fun i => decide (i < bound)) = List.range bound := by
    intro count bound enough
    obtain ⟨rest, rfl⟩ := Nat.exists_eq_add_of_le enough
    rw [List.range_add, List.takeWhile_append_of_pos]
    · cases rest with
      | zero => simp
      | succ rest =>
          rw [List.range_succ_eq_map, List.map_cons, Nat.add_zero, List.takeWhile_cons]
          simp
    · intro i listed
      simpa using listed
  rw [strided, List.takeWhile_map]
  have same : ((fun idx => decide (idx < limit)) ∘ fun i => step * (i + 1)) =
      fun i => decide (i < (limit - 1) / step) := by
    funext i
    exact decide_eq_decide.mpr (below i)
  rw [same, taken]
  exact (Nat.div_le_self _ _).trans (Nat.sub_le _ _)

end Indexes

end Fideslib.LinearTransform
