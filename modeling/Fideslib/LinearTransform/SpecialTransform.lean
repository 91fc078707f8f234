/-
This file models the special linear transform and settles for which sizes it is right.
-/

import Fideslib.Library.PartialLists
import Fideslib.LinearTransform.Rotation

namespace Fideslib.LinearTransform

open SlotRotation (rotateSlots)

/-- These operands stay fixed while the transform runs. -/
structure SpecialOperands (slots : Nat) (R : Type) where
  ctxt1 : ZMod slots → R
  ctxt2 : ZMod slots → R
  rowSize : Nat
  bStep : Nat
  pts1 : List (ZMod slots → R)
  pts2 : List (ZMod slots → R)
  stride : Int
  stride3 : Int

/-- A ciphertext that was never written is none. -/
structure SpecialState (slots : Nat) (R : Type) where
  ctxt3 : ZMod slots → R
  fastRotation3 : Nat → Option (ZMod slots → R)
  auxVector : Nat → Option (ZMod slots → R)
  result : Option (ZMod slots → R)

namespace SpecialOperands

variable {slots : Nat} {R : Type} [CommRing R]

def gStep (operands : SpecialOperands slots R) : Nat :=
  (operands.rowSize + operands.bStep - 1) / operands.bStep

/-- The very first row has no part of the second ciphertext. -/
def term (operands : SpecialOperands slots R) (N j i : Nat) : ZMod slots → R :=
  let row := operands.bStep * j + i
  let index := (i : Int) * operands.stride
  let first := rotateHoisted N operands.ctxt1 index * operands.pts1.getD row 0
  if row ≠ 0 then first + rotateHoisted N operands.ctxt2 index * operands.pts2.getD row 0 else first

/-- Only places with a row are written. The others keep what they had. -/
def refill (operands : SpecialOperands slots R) (N j : Nat) (state : SpecialState slots R) :
    SpecialState slots R :=
  let row := operands.bStep * j
  let size := min (operands.bStep - 1) (operands.rowSize - (row + 1))
  { state with
    auxVector := fun i =>
      if i < operands.bStep ∧ row + i < operands.rowSize then some (operands.term N j i)
      else state.auxVector i
    fastRotation3 := fun i =>
      if row + 1 < operands.rowSize ∧ 1 ≤ i ∧ i ≤ size then
        some (rotateHoisted N state.ctxt3 ((i : Int) * operands.stride3))
      else state.fastRotation3 i }

/-- The third ciphertext itself is its own first rotation. -/
def zeroRot_andFastRotation3 (state : SpecialState slots R) (i : Nat) : Option (ZMod slots → R) :=
  if i = 0 then some state.ctxt3 else state.fastRotation3 i

/-- The batched product runs over all places and rejects an operand that was never written. -/
def dotProduct (operands : SpecialOperands slots R) (state : SpecialState slots R) :
    Option (ZMod slots → R) :=
  ((List.range operands.bStep).mapM fun i => do
    let aux ← state.auxVector i
    let rotated ← zeroRot_andFastRotation3 state i
    some (aux * rotated)).map List.sum

/-- The first giant step is copied and the later ones are added. -/
def collect (operands : SpecialOperands slots R) (j : Nat) (state : SpecialState slots R)
    (aux : ZMod slots → R) : Option (ZMod slots → R) :=
  if j = operands.gStep - 1 then some aux else state.result.map (· + aux)

/-- The rotations after a giant step are issued without a test. -/
def giantStep (operands : SpecialOperands slots R) (N j : Nat) (state : SpecialState slots R) :
    Option (SpecialState slots R) := do
  let refilled := operands.refill N j state
  let aux ← operands.dotProduct refilled
  let result ← operands.collect j state aux
  if 0 < j then
    let rotated ← rotate N result (operands.stride * operands.bStep)
    let ctxt3 ← rotate N refilled.ctxt3 (-(operands.bStep : Int) * ((operands.rowSize - 1 : Nat) : Int))
    some { refilled with result := some rotated, ctxt3 := ctxt3 }
  else
    some { refilled with result := some result }

/-- The third ciphertext starts at the last giant step. Only a distance of zero is skipped. -/
def start (operands : SpecialOperands slots R) (N : Nat) (ctxt3 : ZMod slots → R) :
    Option (ZMod slots → R) :=
  let distance := (operands.gStep - 1) * operands.bStep * (operands.rowSize - 1)
  if distance ≠ 0 then rotate N ctxt3 (distance : Int) else some ctxt3

/-- The giant steps run from the last one down. -/
def giantSteps (operands : SpecialOperands slots R) (N : Nat) :
    Nat → SpecialState slots R → Option (SpecialState slots R)
  | 0, state => some state
  | j + 1, state => (operands.giantStep N j state).bind (operands.giantSteps N j)

end SpecialOperands

/-- The transform leaves its result in the first ciphertext and rotates the third one. -/
def LinearTransformSpecial {slots : Nat} {R : Type} [CommRing R] (N : Nat)
    (ctxt1 ctxt2 ctxt3 : ZMod slots → R) (rowSize bStep : Nat) (pts1 pts2 : List (ZMod slots → R))
    (stride stride3 : Int) : Option ((ZMod slots → R) × (ZMod slots → R)) := do
  if bStep = 0 ∨ pts1.length < rowSize ∨ pts2.length < rowSize then none
  let operands : SpecialOperands slots R := {
    ctxt1 := ctxt1, ctxt2 := ctxt2, rowSize := rowSize, bStep := bStep
    pts1 := pts1, pts2 := pts2, stride := stride, stride3 := stride3 }
  let started ← operands.start N ctxt3
  let last ← operands.giantSteps N operands.gStep
    { ctxt3 := started, fastRotation3 := fun _ => none, auxVector := fun _ => none, result := none }
  let result ← last.result
  some (result, last.ctxt3)

section

variable {slots N : Nat} {R : Type} [CommRing R]

namespace SpecialOperands

/-- This is what one row contributes before the rotation of its giant step. -/
def rowTerm (operands : SpecialOperands slots R) (ctxt3 : ZMod slots → R) (j i : Nat) :
    ZMod slots → R :=
  let row := operands.bStep * j + i
  (rotateSlots operands.ctxt1 ((i : Int) * operands.stride) * operands.pts1.getD row 0 +
    if row = 0 then 0
    else rotateSlots operands.ctxt2 ((i : Int) * operands.stride) * operands.pts2.getD row 0) *
  rotateSlots ctxt3 ((i : Int) * operands.stride3 +
    (j : Int) * ((operands.bStep * (operands.rowSize - 1) : Nat) : Int))

def stepSum (operands : SpecialOperands slots R) (ctxt3 : ZMod slots → R) (j : Nat) :
    ZMod slots → R :=
  ∑ i ∈ Finset.range operands.bStep, operands.rowTerm ctxt3 j i

/-- The unbatched structure adds up the rows one by one. -/
def rowSum (operands : SpecialOperands slots R) (ctxt3 : ZMod slots → R) : ZMod slots → R :=
  ∑ row ∈ Finset.range operands.rowSize,
    rotateSlots (operands.rowTerm ctxt3 (row / operands.bStep) (row % operands.bStep))
      (((row / operands.bStep : Nat) : Int) * (operands.stride * operands.bStep))

variable {operands : SpecialOperands slots R} {ctxt3 : ZMod slots → R}

theorem term_eq (divides : slots ∣ N / 2) (j i : Nat) :
    operands.term N j i * rotateSlots ctxt3 ((i : Int) * operands.stride3 +
      (j : Int) * ((operands.bStep * (operands.rowSize - 1) : Nat) : Int)) =
        operands.rowTerm ctxt3 j i := by
  rw [term, rowTerm, rotateHoisted_eq divides, rotateHoisted_eq divides]
  by_cases first : operands.bStep * j + i = 0
  · simp only [first, ne_eq, not_true, if_false, if_true, add_zero]
  · simp only [first, ne_eq, not_false_eq_true, if_true, if_false]

/-- A giant step with all its rows multiplies the rows of this step only. -/
theorem dotProduct_refill (divides : slots ∣ N / 2) {j : Nat}
    (full : operands.bStep * j + operands.bStep ≤ operands.rowSize)
    {state : SpecialState slots R} (rotated : state.ctxt3 = rotateSlots ctxt3
      ((j : Int) * ((operands.bStep * (operands.rowSize - 1) : Nat) : Int))) :
    operands.dotProduct (operands.refill N j state) =
      some (operands.stepSum ctxt3 j) := by
  have each : ∀ i ∈ List.range operands.bStep,
      (do
        let aux ← (operands.refill N j state).auxVector i
        let rotated ← zeroRot_andFastRotation3 (operands.refill N j state) i
        some (aux * rotated)) = some (operands.rowTerm ctxt3 j i) := by
    intro i listed
    have inside := List.mem_range.mp listed
    have aux : (operands.refill N j state).auxVector i = some (operands.term N j i) := by
      rw [refill]
      exact if_pos ⟨inside, by omega⟩
    have operand : zeroRot_andFastRotation3 (operands.refill N j state) i =
          some (rotateSlots ctxt3 ((i : Int) * operands.stride3 +
            (j : Int) * ((operands.bStep * (operands.rowSize - 1) : Nat) : Int))) := by
      rw [zeroRot_andFastRotation3]
      by_cases zero : i = 0
      · rw [if_pos zero, zero, Nat.cast_zero, zero_mul, zero_add, ← rotated]
        rfl
      · rw [if_neg zero, refill]
        dsimp only
        rw [if_pos ⟨by omega, by omega, by omega⟩, rotateHoisted_eq divides, rotated,
          SlotRotation.rotateSlots_rotateSlots, add_comm]
    rw [aux, operand, ← term_eq divides]
    rfl
  rw [dotProduct, PartialLists.mapM_eq_map each, Option.map_some, SlotRotation.sum_map_range,
    stepSum]

/-- This is the distance of the third ciphertext between two giant steps. -/
def distance3 (operands : SpecialOperands slots R) : Int :=
  ((operands.bStep * (operands.rowSize - 1) : Nat) : Int)

/-- The later giant steps stand at their distance to the current one. -/
def laterSteps (operands : SpecialOperands slots R) (ctxt3 : ZMod slots → R) (j : Nat) :
    ZMod slots → R :=
  ∑ place ∈ Finset.range (operands.gStep - 1 - j),
    rotateSlots (operands.stepSum ctxt3 (j + 1 + place))
      (((place + 1 : Nat) : Int) * (operands.stride * operands.bStep))

/-- This holds before each giant step. -/
structure Ready (operands : SpecialOperands slots R) (ctxt3 : ZMod slots → R) (j : Nat)
    (state : SpecialState slots R) : Prop where
  rotated : state.ctxt3 = rotateSlots ctxt3 ((j : Int) * operands.distance3)
  result : j = operands.gStep - 1 ∨ state.result = some (operands.laterSteps ctxt3 j)

/-- No rotation between giant steps is trivial. -/
structure ProperSteps (operands : SpecialOperands slots R) : Prop where
  result : ¬(slots : Int) ∣ operands.stride * operands.bStep
  ctxt3 : ¬(slots : Int) ∣ operands.distance3

theorem laterSteps_last {j : Nat} (last : j = operands.gStep - 1) :
    operands.laterSteps ctxt3 j = 0 := by
  rw [laterSteps, last, Nat.sub_self, Finset.sum_range_zero]

theorem Ready.collect {j : Nat} {state : SpecialState slots R}
    (ready : operands.Ready ctxt3 j state) (sum : ZMod slots → R) :
    operands.collect j state sum = some (operands.laterSteps ctxt3 j + sum) := by
  rw [SpecialOperands.collect]
  by_cases last : j = operands.gStep - 1
  · rw [if_pos last, laterSteps_last last, zero_add]
  · rw [if_neg last, ready.result.resolve_left last]
    rfl

theorem laterSteps_pred {j : Nat} (inside : j + 1 < operands.gStep) :
    rotateSlots (operands.laterSteps ctxt3 (j + 1) + operands.stepSum ctxt3 (j + 1))
        (operands.stride * operands.bStep) =
      operands.laterSteps ctxt3 j := by
  have count : operands.gStep - 1 - j = operands.gStep - 1 - (j + 1) + 1 := by omega
  rw [SlotRotation.rotateSlots_add, laterSteps, laterSteps, count, Finset.sum_range_succ',
    SlotRotation.rotateSlots_sum]
  congr 1
  · apply Finset.sum_congr rfl
    intro place _
    rw [SlotRotation.rotateSlots_rotateSlots]
    congr 1
    · congr 1
      omega
    · push_cast
      ring
  · rw [Nat.add_zero, zero_add, Nat.cast_one, one_mul]

theorem giantStep_zero (divides : slots ∣ N / 2) (full : operands.bStep ≤ operands.rowSize)
    {state : SpecialState slots R} (ready : operands.Ready ctxt3 0 state) :
    ∃ last, operands.giantStep N 0 state = some last ∧
      last.result = some (operands.laterSteps ctxt3 0 + operands.stepSum ctxt3 0) ∧
      last.ctxt3 = ctxt3 := by
  have rotated := ready.rotated
  rw [Nat.cast_zero, zero_mul, SlotRotation.rotateSlots_zero] at rotated
  have product := @dotProduct_refill slots N R _ operands ctxt3 divides 0 (by omega) state
    ready.rotated
  rw [giantStep, product]
  simp only [Option.bind_eq_bind, Option.bind_some, ready.collect]
  exact ⟨_, rfl, rfl, rotated⟩

theorem giantStep_succ (positive : 0 < slots) (divides : slots ∣ N / 2) {j : Nat}
    (inside : j + 1 < operands.gStep)
    (full : operands.bStep * (j + 1) + operands.bStep ≤ operands.rowSize)
    (proper : operands.ProperSteps) {state : SpecialState slots R}
    (ready : operands.Ready ctxt3 (j + 1) state) :
    ∃ next, operands.giantStep N (j + 1) state = some next ∧ operands.Ready ctxt3 j next := by
  have product := dotProduct_refill divides full ready.rotated
  have back : -(operands.bStep : Int) * ((operands.rowSize - 1 : Nat) : Int) =
      -operands.distance3 := by
    rw [distance3, Nat.cast_mul, neg_mul]
  rw [giantStep, product]
  simp only [Option.bind_eq_bind, Option.bind_some, ready.collect, if_pos j.succ_pos]
  rw [rotate_of_not_dvd positive divides _ proper.result, back,
    rotate_of_not_dvd positive divides _ (by rw [dvd_neg]; exact proper.ctxt3),
    laterSteps_pred inside]
  refine ⟨_, rfl, ?_, .inr rfl⟩
  change rotateSlots state.ctxt3 (-operands.distance3) = _
  rw [ready.rotated, SlotRotation.rotateSlots_rotateSlots]
  congr 1
  push_cast
  ring

theorem giantSteps_eq (positive : 0 < slots) (divides : slots ∣ N / 2)
    (whole : operands.bStep * operands.gStep = operands.rowSize) {j : Nat}
    (inside : j < operands.gStep) (proper : 0 < j → operands.ProperSteps)
    {state : SpecialState slots R} (ready : operands.Ready ctxt3 j state) :
    ∃ last, operands.giantSteps N (j + 1) state = some last ∧
      last.result = some (operands.laterSteps ctxt3 0 + operands.stepSum ctxt3 0) ∧
      last.ctxt3 = ctxt3 := by
  have full : operands.bStep * j + operands.bStep ≤ operands.rowSize := by
    rw [← whole, ← Nat.mul_succ]
    exact Nat.mul_le_mul_left _ inside
  induction j generalizing state with
  | zero =>
      obtain ⟨last, ran, held⟩ := giantStep_zero divides (by omega) ready
      exact ⟨last, by rw [giantSteps, ran]; rfl, held⟩
  | succ j inductionHypothesis =>
      obtain ⟨next, ran, later⟩ := giantStep_succ positive divides inside full
        (proper j.succ_pos) ready
      have shorter : operands.bStep * j + operands.bStep ≤ operands.rowSize := by
        rw [Nat.mul_succ] at full
        omega
      obtain ⟨last, rest, held⟩ := inductionHypothesis (by omega)
        (fun _ => proper j.succ_pos) later shorter
      exact ⟨last, by rw [giantSteps, ran]; exact rest, held⟩

/-- The giant steps together are the rows one by one. -/
theorem laterSteps_all (babySteps : 0 < operands.bStep) (started : 0 < operands.gStep)
    (whole : operands.bStep * operands.gStep = operands.rowSize) :
    operands.laterSteps ctxt3 0 + operands.stepSum ctxt3 0 = operands.rowSum ctxt3 := by
  have count : operands.gStep = operands.gStep - 1 + 1 := by omega
  have steps : operands.laterSteps ctxt3 0 + operands.stepSum ctxt3 0 =
      ∑ j ∈ Finset.range operands.gStep, rotateSlots (operands.stepSum ctxt3 j)
        ((j : Int) * (operands.stride * operands.bStep)) := by
    rw [count, Finset.sum_range_succ', laterSteps, Nat.cast_zero, zero_mul,
      SlotRotation.rotateSlots_zero, Nat.sub_zero]
    congr 1
    apply Finset.sum_congr rfl
    intro place _
    rw [zero_add, Nat.add_comm 1 place]
  rw [steps, rowSum, ← whole, ← SlotRotation.sum_blocks _ operands.bStep operands.gStep]
  apply Finset.sum_congr rfl
  intro j _
  rw [stepSum, SlotRotation.rotateSlots_sum]
  apply Finset.sum_congr rfl
  intro i listed
  have inside := Finset.mem_range.mp listed
  have quotient : (operands.bStep * j + i) / operands.bStep = j := by
    rw [Nat.mul_add_div babySteps, Nat.div_eq_of_lt inside, Nat.add_zero]
  have rest : (operands.bStep * j + i) % operands.bStep = i := by
    rw [Nat.mul_add_mod, Nat.mod_eq_of_lt inside]
  rw [quotient, rest]

/-- This is the state before the first giant step. -/
def initial (started : ZMod slots → R) : SpecialState slots R :=
  { ctxt3 := started, fastRotation3 := fun _ => none, auxVector := fun _ => none, result := none }

omit [CommRing R] in
theorem gStep_bounds (babySteps : 0 < operands.bStep) :
    operands.rowSize ≤ operands.bStep * operands.gStep ∧
      operands.bStep * operands.gStep < operands.rowSize + operands.bStep := by
  have division := Nat.div_add_mod (operands.rowSize + operands.bStep - 1) operands.bStep
  have small := Nat.mod_lt (operands.rowSize + operands.bStep - 1) babySteps
  rw [gStep]
  omega

theorem start_ready (positive : 0 < slots) (divides : slots ∣ N / 2)
    (whole : operands.bStep * operands.gStep = operands.rowSize) (babySteps : 0 < operands.bStep)
    (proper : operands.gStep = 1 ∨ ¬(slots : Int) ∣
      (((operands.gStep - 1) * operands.bStep * (operands.rowSize - 1) : Nat) : Int)) :
    ∃ started, operands.start N ctxt3 = some started ∧
      operands.Ready ctxt3 (operands.gStep - 1) (initial started) := by
  rw [start]
  by_cases skipped : (operands.gStep - 1) * operands.bStep * (operands.rowSize - 1) = 0
  · have single : operands.gStep - 1 = 0 := by
      by_contra several
      have large : 2 ≤ operands.rowSize := by
        rw [← whole]
        exact Nat.le_trans (by omega) (Nat.le_mul_of_pos_left operands.gStep babySteps)
      have product : 0 < (operands.gStep - 1) * operands.bStep * (operands.rowSize - 1) :=
        Nat.mul_pos (Nat.mul_pos (by omega) babySteps) (by omega)
      omega
    refine ⟨ctxt3, if_neg (not_not.mpr skipped), ?_, .inl rfl⟩
    rw [single, Nat.cast_zero, zero_mul, SlotRotation.rotateSlots_zero]
    rfl
  · have several : operands.gStep ≠ 1 := by
      intro one
      rw [one, Nat.sub_self, Nat.zero_mul, Nat.zero_mul] at skipped
      exact skipped rfl
    rw [if_pos skipped, rotate_of_not_dvd positive divides _ (proper.resolve_left several)]
    refine ⟨_, rfl, ?_, .inl rfl⟩
    change rotateSlots ctxt3 _ = _
    rw [distance3, ← Nat.cast_mul, Nat.mul_assoc]

/-- A partial giant step leaves a place that was never written. -/
theorem giantStep_partial {j : Nat} (babySteps : 0 < operands.bStep)
    (short : operands.rowSize < operands.bStep * j + operands.bStep) (started : ZMod slots → R) :
    operands.giantStep N j (initial started) = none := by
  have last : operands.bStep - 1 ∈ List.range operands.bStep := List.mem_range.mpr (by omega)
  have unwritten : (operands.refill N j (initial started)).auxVector (operands.bStep - 1) = none := by
    rw [refill]
    exact if_neg (by omega)
  have product : operands.dotProduct (operands.refill N j (initial started)) = none := by
    rw [dotProduct, PartialLists.mapM_eq_none last]
    · rfl
    · rw [unwritten]
      rfl
  rw [giantStep, product]
  rfl

/-- A giant step that is not the last one rotates the result and the third ciphertext. -/
theorem giantStep_proper (positive : 0 < slots) (divides : slots ∣ N / 2) {j : Nat}
    (later : 0 < j) {state next : SpecialState slots R}
    (ran : operands.giantStep N j state = some next) : operands.ProperSteps := by
  have back : -(operands.bStep : Int) * ((operands.rowSize - 1 : Nat) : Int) =
      -operands.distance3 := by
    rw [distance3, Nat.cast_mul, neg_mul]
  obtain ⟨aux, _, rest⟩ := Option.bind_eq_some_iff.mp ran
  obtain ⟨result, _, rest⟩ := Option.bind_eq_some_iff.mp rest
  rw [if_pos later] at rest
  obtain ⟨rotated, moved, rest⟩ := Option.bind_eq_some_iff.mp rest
  obtain ⟨rotated3, moved3, _⟩ := Option.bind_eq_some_iff.mp rest
  constructor
  · intro trivial
    rw [rotate_of_dvd positive divides _ trivial] at moved
    cases moved
  · intro trivial
    rw [back, rotate_of_dvd positive divides _ (by rw [dvd_neg]; exact trivial)] at moved3
    cases moved3

end SpecialOperands

/-- The transform adds up the rows and gives the third ciphertext back. -/
def SpecialRight (slots : Nat) (R : Type) [CommRing R] (N rowSize bStep : Nat)
    (stride stride3 : Int) : Prop :=
  ∀ (ctxt1 ctxt2 ctxt3 : ZMod slots → R) (pts1 pts2 : List (ZMod slots → R)),
    rowSize ≤ pts1.length → rowSize ≤ pts2.length →
      LinearTransformSpecial N ctxt1 ctxt2 ctxt3 rowSize bStep pts1 pts2 stride stride3 =
        some (SpecialOperands.rowSum {
          ctxt1 := ctxt1, ctxt2 := ctxt2, rowSize := rowSize, bStep := bStep
          pts1 := pts1, pts2 := pts2, stride := stride, stride3 := stride3 } ctxt3, ctxt3)

/-- The rows fill every giant step, and no rotation is trivial. -/
structure SpecialProper (slots rowSize bStep : Nat) (stride : Int) : Prop where
  babySteps : 1 ≤ bStep
  rows : 1 ≤ rowSize
  whole : bStep ∣ rowSize
  rotations : rowSize = bStep ∨
    (¬(slots : Int) ∣ stride * bStep ∧ ¬(slots : Int) ∣ ((bStep * (rowSize - 1) : Nat) : Int) ∧
      ¬(slots : Int) ∣ (((rowSize - bStep) * (rowSize - 1) : Nat) : Int))

variable {rowSize bStep : Nat} {stride stride3 : Int}

theorem SpecialProper.right (proper : SpecialProper slots rowSize bStep stride)
    (positive : 0 < slots) (divides : slots ∣ N / 2) :
    SpecialRight slots R N rowSize bStep stride stride3 := by
  intro ctxt1 ctxt2 ctxt3 pts1 pts2 enough1 enough2
  obtain ⟨babySteps, rows, ⟨gStep, rfl⟩, rotations⟩ := proper
  let operands : SpecialOperands slots R := {
    ctxt1 := ctxt1, ctxt2 := ctxt2, rowSize := bStep * gStep, bStep := bStep
    pts1 := pts1, pts2 := pts2, stride := stride, stride3 := stride3 }
  have steps : operands.gStep = gStep := by
    rw [SpecialOperands.gStep, Nat.add_sub_assoc babySteps, Nat.mul_add_div babySteps,
      Nat.div_eq_of_lt (Nat.sub_one_lt (Nat.ne_of_gt babySteps)), Nat.add_zero]
  have whole : operands.bStep * operands.gStep = operands.rowSize := by rw [steps]
  have started : 0 < operands.gStep := by
    rw [steps]
    exact Nat.pos_of_mul_pos_left rows
  have single : bStep * gStep = bStep → operands.gStep = 1 := by
    intro one
    rw [steps]
    exact Nat.eq_of_mul_eq_mul_left babySteps (by rw [one, Nat.mul_one])
  have distance : (operands.gStep - 1) * operands.bStep * (operands.rowSize - 1) =
      (bStep * gStep - bStep) * (bStep * gStep - 1) := by
    rw [steps, Nat.sub_mul, Nat.one_mul, Nat.mul_comm gStep]
  obtain ⟨start, isStart, ready⟩ := @SpecialOperands.start_ready slots N R _ operands ctxt3
    positive divides whole babySteps (by
      rw [distance]
      exact rotations.imp single fun proper => proper.2.2)
  obtain ⟨last, ran, result, rotated⟩ := SpecialOperands.giantSteps_eq positive divides whole
    (Nat.sub_one_lt started.ne') (fun later => by
      have proper := rotations.resolve_left fun one => by
        have := single one
        omega
      exact ⟨proper.1, proper.2.1⟩) ready
  rw [Nat.sub_add_cancel started] at ran
  rw [LinearTransformSpecial, if_neg (by omega)]
  apply Option.bind_eq_some_iff.mpr
  refine ⟨start, isStart, Option.bind_eq_some_iff.mpr ⟨last, ran, ?_⟩⟩
  have rows := @SpecialOperands.laterSteps_all slots R _ operands ctxt3 babySteps started whole
  rw [result, rotated, rows]
  rfl

theorem SpecialRight.proper (positive : 0 < slots) (divides : slots ∣ N / 2)
    (right : SpecialRight slots R N rowSize bStep stride stride3) :
    SpecialProper slots rowSize bStep stride := by
  let zeros : List (ZMod slots → R) := List.replicate rowSize 0
  let operands : SpecialOperands slots R := {
    ctxt1 := 0, ctxt2 := 0, rowSize := rowSize, bStep := bStep
    pts1 := zeros, pts2 := zeros, stride := stride, stride3 := stride3 }
  have enough : rowSize ≤ zeros.length := by rw [List.length_replicate]
  have ran := right 0 0 0 zeros zeros enough enough
  rw [LinearTransformSpecial] at ran
  by_cases rejected : bStep = 0 ∨ zeros.length < rowSize ∨ zeros.length < rowSize
  · rw [if_pos rejected] at ran
    cases ran
  · rw [if_neg rejected] at ran
    have babySteps : 0 < bStep := by omega
    obtain ⟨start, isStart, rest⟩ := Option.bind_eq_some_iff.mp ran
    obtain ⟨last, looped, rest⟩ := Option.bind_eq_some_iff.mp rest
    obtain ⟨result, returned, _⟩ := Option.bind_eq_some_iff.mp rest
    change operands.start N 0 = some start at isStart
    change operands.giantSteps N operands.gStep (SpecialOperands.initial start) = some last at looped
    have bounds := @SpecialOperands.gStep_bounds slots R operands babySteps
    change rowSize ≤ bStep * operands.gStep ∧ bStep * operands.gStep < rowSize + bStep at bounds
    cases count : operands.gStep with
    | zero =>
        rw [count] at looped
        cases looped
        cases returned
    | succ j =>
        rw [count] at looped bounds
        obtain ⟨next, stepped, _⟩ := Option.bind_eq_some_iff.mp looped
        have whole : rowSize = bStep * (j + 1) := by
          by_contra short
          rw [SpecialOperands.giantStep_partial babySteps (by
            change rowSize < bStep * (j + 1)
            omega)] at stepped
          cases stepped
        refine ⟨babySteps, ?_, ⟨j + 1, whole⟩, ?_⟩
        · rw [whole]
          exact Nat.mul_pos babySteps j.succ_pos
        · cases j with
          | zero =>
              left
              rw [whole, zero_add, Nat.mul_one]
          | succ j =>
              right
              have proper := SpecialOperands.giantStep_proper positive divides j.succ_pos stepped
              refine ⟨proper.result, proper.ctxt3, ?_⟩
              have distance : (operands.gStep - 1) * operands.bStep * (operands.rowSize - 1) =
                  (rowSize - bStep) * (rowSize - 1) := by
                rw [count, Nat.add_sub_cancel]
                change (j + 1) * bStep * (rowSize - 1) = _
                congr 1
                rw [whole, Nat.mul_succ bStep (j + 1), Nat.add_sub_cancel, Nat.mul_comm]
              have large : 2 ≤ rowSize := by
                rw [whole]
                exact Nat.le_trans (by omega) (Nat.le_mul_of_pos_left _ babySteps)
              have several : (rowSize - bStep) * (rowSize - 1) ≠ 0 := by
                rw [← distance, count]
                exact (Nat.mul_pos (Nat.mul_pos (by omega) babySteps)
                  (Nat.sub_pos_of_lt large)).ne'
              intro trivial
              rw [SpecialOperands.start] at isStart
              rw [distance, if_pos several, rotate_of_dvd positive divides _ trivial] at isStart
              cases isStart

end

/-- The transform is right exactly where the baby steps divide the rows. -/
theorem special_right_iff (R : Type) [CommRing R] (slots N rowSize bStep : Nat)
    (stride stride3 : Int) (positive : 0 < slots) (divides : slots ∣ N / 2) :
    SpecialRight slots R N rowSize bStep stride stride3 ↔
      SpecialProper slots rowSize bStep stride :=
  ⟨fun right => right.proper positive divides, fun proper => proper.right positive divides⟩

theorem special_right_iff_four :
    SpecialRight 16 Int 32 4 2 1 4 ↔ SpecialProper 16 4 2 1 :=
  special_right_iff Int 16 32 4 2 1 4 (by decide) (by decide)

/-- Three rows leave a place of the second giant step unwritten. -/
theorem special_three_wrong : ¬SpecialRight 16 Int 32 3 2 1 3 := by
  intro right
  have proper := right.proper (by decide) (by decide)
  exact absurd proper.whole (by decide)

end Fideslib.LinearTransform
