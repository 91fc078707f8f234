/-
This file models a linear transform by baby and giant steps and proves when it is right.
-/

import Fideslib.LinearTransform.Rotation

set_option linter.dupNamespace false
namespace Fideslib.LinearTransform

open SlotRotation (rotateSlots)

def GetLinearTransformRotationIndices (bStep : Nat) (stride offset : Int) : List Int :=
  (List.range bStep).map (fun index : Nat => ((index + 1 : Nat) : Int) * stride) ++
    if offset ≠ 0 then [offset] else []

/-- The nested loops write entry `i + j * bStep` in giant step `j`. -/
def GetLinearTransformPlaintextRotationIndices (rowSize bStep : Nat) (stride offset : Int) :
    List Int :=
  (List.range rowSize).map fun place : Nat => -(bStep : Int) * ((place / bStep : Nat) : Int) * stride - offset

/-- The rotations that were issued are kept next to the vector. -/
structure Issued (slots : Nat) (R : Type) where
  vector : ZMod slots → R
  rotations : List Int

section

variable {slots : Nat} {R : Type} [CommRing R]

/-- A null plaintext pads the last giant step. -/
def dotProduct (N rowSize bStep : Nat) (ctxt : ZMod slots → R) (pts : List (ZMod slots → R))
    (stride : Int) (giant : Nat) : ZMod slots → R :=
  ∑ baby ∈ Finset.range bStep,
    if bStep * giant + baby < rowSize then
      rotateHoisted N ctxt ((baby : Int) * stride) * pts.getD (bStep * giant + baby) 0
    else
      0

/-- Only the hoisted rotations by a proper index need a key. -/
def hoistedRotations (slots N bStep : Nat) (stride : Int) : List Int :=
  ((List.range bStep).map fun baby : Nat => (baby : Int) * stride).filter fun index =>
    normalyzeIndex index slots N ≠ 0

def issue (N : Nat) (result : Issued slots R) (index : Int) : Option (Issued slots R) := do
  let vector ← rotate N result.vector index
  some { vector := vector, rotations := result.rotations ++ [index] }

/-- The skip tests are made modulo N / 2 and against zero. -/
def giantStep (N bStep : Nat) (stride offset : Int) (giant : Nat) (result : Issued slots R) :
    Option (Issued slots R) :=
  if 0 < giant then
    if ((bStep : Int) * stride).tmod ((N / 2 : Nat) : Int) ≠ 0 then
      issue N result ((bStep : Int) * stride)
    else
      some result
  else if offset ≠ 0 then
    issue N result offset
  else
    some result

/-- The giant steps run from the last one down and add up what they rotate. -/
def giantLoop (N bStep : Nat) (stride offset : Int) (results : Nat → ZMod slots → R)
    (hoisted : List Int) (gStep : Nat) : Nat → Option (Issued slots R)
  | 0 => giantStep N bStep stride offset (gStep - 1)
      { vector := results (gStep - 1), rotations := hoisted }
  | count + 1 => do
      let last ← giantLoop N bStep stride offset results hoisted gStep count
      giantStep N bStep stride offset (gStep - 1 - (count + 1))
        { vector := results (gStep - 1 - (count + 1)) + last.vector
          rotations := last.rotations }

def LinearTransform (N : Nat) (ctxt : ZMod slots → R) (rowSize bStep : Nat)
    (pts : List (ZMod slots → R)) (stride offset : Int) : Option (Issued slots R) :=
  let gStep := (rowSize + bStep - 1) / bStep
  if bStep = 0 ∨ gStep = 0 ∨ pts.length < rowSize then
    none
  else
    giantLoop N bStep stride offset (dotProduct N rowSize bStep ctxt pts stride)
      (hoistedRotations slots N bStep stride) gStep (gStep - 1)

section

variable {N : Nat} {bStep : Nat} {stride offset : Int}

omit [CommRing R] in
theorem issue_eq (positive : 0 < slots) (divides : slots ∣ N / 2) (result : Issued slots R)
    {index : Int} (proper : ¬(slots : Int) ∣ index) :
    issue N result index = some
      { vector := rotateSlots result.vector index, rotations := result.rotations ++ [index] } := by
  rw [issue, rotate_of_not_dvd positive divides result.vector proper]
  rfl

omit [CommRing R] in
theorem issue_of_dvd (positive : 0 < slots) (divides : slots ∣ N / 2) (result : Issued slots R)
    {index : Int} (trivial : (slots : Int) ∣ index) : issue N result index = none := by
  rw [issue, rotate_of_dvd positive divides result.vector trivial]
  rfl

theorem tmod_eq_zero_iff (index : Int) :
    index.tmod ((N / 2 : Nat) : Int) = 0 ↔ ((N / 2 : Nat) : Int) ∣ index :=
  ⟨Int.dvd_of_tmod_eq_zero, Int.tmod_eq_zero_of_dvd⟩

omit [CommRing R] in
/-- A giant step rotates unless its rotation is trivial in the whole ring. -/
theorem giantStep_eq (positive : 0 < slots) (divides : slots ∣ N / 2)
    (proper : ((N / 2 : Nat) : Int) ∣ (bStep : Int) * stride ∨
      ¬(slots : Int) ∣ (bStep : Int) * stride) {giant : Nat} (later : 0 < giant)
    (result : Issued slots R) :
    ∃ issued, giantStep N bStep stride offset giant result = some
        { vector := rotateSlots result.vector ((bStep : Int) * stride)
          rotations := result.rotations ++ issued } ∧
      ∀ rotation ∈ issued, rotation = (bStep : Int) * stride := by
  rw [giantStep, if_pos later]
  by_cases whole : ((N / 2 : Nat) : Int) ∣ (bStep : Int) * stride
  · have trivial : (slots : Int) ∣ (bStep : Int) * stride :=
      (Int.natCast_dvd_natCast.mpr divides).trans whole
    rw [if_neg (not_not.mpr ((tmod_eq_zero_iff _).mpr whole))]
    refine ⟨[], ?_, ?_⟩
    · rw [SlotRotation.rotateSlots_of_dvd _ trivial, List.append_nil]
    · intro rotation member
      simp at member
  · rw [if_pos (mt (tmod_eq_zero_iff _).mp whole),
      issue_eq positive divides result (proper.resolve_left whole)]
    refine ⟨[(bStep : Int) * stride], rfl, ?_⟩
    intro rotation member
    exact List.mem_singleton.mp member

/-- The running sum holds each result at its distance from the current giant step. -/
theorem giantLoop_eq (positive : 0 < slots) (divides : slots ∣ N / 2)
    (proper : ((N / 2 : Nat) : Int) ∣ (bStep : Int) * stride ∨
      ¬(slots : Int) ∣ (bStep : Int) * stride)
    (results : Nat → ZMod slots → R) (hoisted : List Int) (gStep count : Nat)
    (inside : count + 1 < gStep) :
    ∃ rotations, giantLoop N bStep stride offset results hoisted gStep count = some
        { vector := ∑ place ∈ Finset.range (count + 1),
            rotateSlots (results (gStep - 1 - count + place))
              (((place + 1 : Nat) : Int) * ((bStep : Int) * stride))
          rotations := rotations } ∧
      ∀ rotation ∈ rotations, rotation ∈ hoisted ∨ rotation = (bStep : Int) * stride := by
  induction count with
  | zero =>
      obtain ⟨issued, step, only⟩ := @giantStep_eq slots R N bStep stride offset positive divides
        proper (gStep - 1) (by omega) { vector := results (gStep - 1), rotations := hoisted }
      refine ⟨hoisted ++ issued, ?_, ?_⟩
      · rw [giantLoop, step, zero_add, Finset.sum_range_one]
        simp only [Nat.sub_zero, add_zero, zero_add, Nat.cast_one, one_mul]
      · intro rotation member
        rcases List.mem_append.mp member with before | new
        · exact Or.inl before
        · exact Or.inr (only rotation new)
  | succ count ih =>
      obtain ⟨rotations, loop, known⟩ := ih (by omega)
      rw [giantLoop, loop]
      simp only [Option.bind_eq_bind, Option.bind_some]
      obtain ⟨issued, step, only⟩ := @giantStep_eq slots R N bStep stride offset positive divides
        proper (gStep - 1 - (count + 1)) (by omega)
        { vector := results (gStep - 1 - (count + 1)) +
            ∑ place ∈ Finset.range (count + 1), rotateSlots (results (gStep - 1 - count + place))
              (((place + 1 : Nat) : Int) * ((bStep : Int) * stride))
          rotations := rotations }
      refine ⟨rotations ++ issued, ?_, ?_⟩
      · rw [step]
        congr 2
        rw [SlotRotation.rotateSlots_add, SlotRotation.rotateSlots_sum,
          Finset.sum_range_succ' _ (count + 1), add_comm]
        congr 1
        · apply Finset.sum_congr rfl
          intro place _
          rw [SlotRotation.rotateSlots_rotateSlots]
          congr 1
          · congr 1
            omega
          · push_cast
            ring
        · simp
      · intro rotation member
        rcases List.mem_append.mp member with before | new
        · exact known rotation before
        · exact Or.inr (only rotation new)

/-- The last giant step adds up every result before the offset. -/
theorem giantLoop_last (positive : 0 < slots) (divides : slots ∣ N / 2) {gStep : Nat}
    (proper : gStep = 1 ∨ ((N / 2 : Nat) : Int) ∣ (bStep : Int) * stride ∨
      ¬(slots : Int) ∣ (bStep : Int) * stride)
    (results : Nat → ZMod slots → R) (hoisted : List Int) (started : 1 ≤ gStep) :
    ∃ rotations, giantLoop N bStep stride offset results hoisted gStep (gStep - 1) =
        giantStep N bStep stride offset 0
          { vector := ∑ place ∈ Finset.range gStep,
              rotateSlots (results place) ((place : Int) * ((bStep : Int) * stride))
            rotations := rotations } ∧
      ∀ rotation ∈ rotations, rotation ∈ hoisted ∨ rotation = (bStep : Int) * stride := by
  obtain ⟨count, isCount⟩ : ∃ count, gStep = count + 1 := ⟨gStep - 1, by omega⟩
  rw [isCount, Nat.add_sub_cancel]
  cases count with
  | zero =>
      refine ⟨hoisted, ?_, fun rotation member => Or.inl member⟩
      rw [giantLoop, zero_add, Finset.sum_range_one]
      simp
  | succ count =>
      obtain ⟨rotations, loop, known⟩ := @giantLoop_eq slots R _ N bStep stride offset positive
        divides (proper.resolve_left (by omega)) results hoisted (count + 1 + 1) count (by omega)
      refine ⟨rotations, ?_, known⟩
      rw [giantLoop, loop]
      simp only [Option.bind_eq_bind, Option.bind_some, Nat.add_sub_cancel, Nat.sub_self]
      congr 2
      rw [Finset.sum_range_succ' _ (count + 1), add_comm]
      congr 1
      · apply Finset.sum_congr rfl
        intro place _
        congr 2
        omega
      · simp

end

/-- Each plaintext is a diagonal that is rotated back to its giant step. -/
theorem dotProduct_sum {N rowSize bStep gStep : Nat} (divides : slots ∣ N / 2)
    (positive : 0 < bStep) (enough : rowSize ≤ bStep * gStep) (ctxt : ZMod slots → R)
    (diagonal : Nat → ZMod slots → R) (pts : List (ZMod slots → R)) (stride offset : Int)
    (plaintexts : ∀ place, place < rowSize → pts.getD place 0 = rotateSlots (diagonal place)
      (-(bStep : Int) * ((place / bStep : Nat) : Int) * stride - offset)) :
    rotateSlots (∑ giant ∈ Finset.range gStep,
        rotateSlots (dotProduct N rowSize bStep ctxt pts stride giant)
          ((giant : Int) * ((bStep : Int) * stride))) offset =
      ∑ place ∈ Finset.range rowSize,
        diagonal place * rotateSlots ctxt ((place : Int) * stride + offset) := by
  let terms : Nat → ZMod slots → R := fun place =>
    if place < rowSize then
      diagonal place * rotateSlots ctxt ((place : Int) * stride + offset)
    else
      0
  have block : ∀ giant, rotateSlots (rotateSlots (dotProduct N rowSize bStep ctxt pts stride giant)
      ((giant : Int) * ((bStep : Int) * stride))) offset =
      ∑ baby ∈ Finset.range bStep, terms (bStep * giant + baby) := by
    intro giant
    rw [dotProduct, SlotRotation.rotateSlots_sum, SlotRotation.rotateSlots_sum]
    apply Finset.sum_congr rfl
    intro baby below
    have small := Finset.mem_range.mp below
    by_cases inside : bStep * giant + baby < rowSize
    · have quotient : (bStep * giant + baby) / bStep = giant := by
        rw [Nat.mul_add_div positive, Nat.div_eq_of_lt small, add_zero]
      simp only [terms, if_pos inside]
      rw [plaintexts _ inside, quotient, rotateHoisted_eq divides,
        SlotRotation.rotateSlots_mul, SlotRotation.rotateSlots_mul,
        SlotRotation.rotateSlots_rotateSlots, SlotRotation.rotateSlots_rotateSlots,
        SlotRotation.rotateSlots_rotateSlots, SlotRotation.rotateSlots_rotateSlots, mul_comm]
      congr 1
      · rw [← SlotRotation.rotateSlots_zero (diagonal _)]
        congr 1
        · exact SlotRotation.rotateSlots_zero _
        · ring
      · congr 1
        push_cast
        ring
    · simp only [terms, if_neg inside]
      rfl
  rw [SlotRotation.rotateSlots_sum]
  simp only [block]
  rw [SlotRotation.sum_blocks terms bStep gStep]
  symm
  calc ∑ place ∈ Finset.range rowSize,
        diagonal place * rotateSlots ctxt ((place : Int) * stride + offset)
      = ∑ place ∈ Finset.range rowSize, terms place := by
        apply Finset.sum_congr rfl
        intro place below
        rw [show terms place = _ from if_pos (Finset.mem_range.mp below)]
    _ = ∑ place ∈ Finset.range (bStep * gStep), terms place := by
        apply Finset.sum_subset (Finset.range_mono enough)
        intro place _ outside
        exact if_neg (by simpa using outside)

theorem hoistedRotations_mem {N bStep : Nat} {stride offset rotation : Int}
    (member : rotation ∈ hoistedRotations slots N bStep stride) :
    rotation ∈ GetLinearTransformRotationIndices bStep stride offset := by
  rw [hoistedRotations, List.mem_filter, List.mem_map] at member
  obtain ⟨⟨baby, inside, value⟩, proper⟩ := member
  have later : baby ≠ 0 := by
    intro first
    rw [first, Nat.cast_zero, zero_mul] at value
    rw [← value] at proper
    have zero : normalyzeIndex 0 slots N = 0 := by
      rw [normalyzeIndex, Int.zero_tmod, if_neg (lt_irrefl 0), if_neg]
      exact not_lt.mpr (Int.tdiv_nonneg (by omega) (by decide))
    simp [zero] at proper
  rw [GetLinearTransformRotationIndices, List.mem_append, List.mem_map]
  left
  refine ⟨baby - 1, ?_, ?_⟩
  · rw [List.mem_range] at inside ⊢
    omega
  · rw [Nat.sub_add_cancel (by omega)]
    exact value

theorem GetLinearTransformRotationIndices_step {bStep : Nat} (positive : 1 ≤ bStep)
    (stride offset : Int) :
    (bStep : Int) * stride ∈ GetLinearTransformRotationIndices bStep stride offset := by
  rw [GetLinearTransformRotationIndices, List.mem_append, List.mem_map]
  left
  refine ⟨bStep - 1, List.mem_range.mpr (by omega), ?_⟩
  rw [Nat.sub_add_cancel positive]

theorem GetLinearTransformRotationIndices_offset {offset : Int} (shifted : offset ≠ 0)
    (bStep : Nat) (stride : Int) :
    offset ∈ GetLinearTransformRotationIndices bStep stride offset := by
  rw [GetLinearTransformRotationIndices, if_pos shifted, List.mem_append]
  right
  exact List.mem_singleton_self offset

/-- The plaintexts hold the diagonals at the indices that are meant for them. -/
def RotatedDiagonals (rowSize bStep : Nat) (stride offset : Int)
    (diagonal : Nat → ZMod slots → R) (pts : List (ZMod slots → R)) : Prop :=
  rowSize ≤ pts.length ∧ ∀ place < rowSize, ∃ index,
    (GetLinearTransformPlaintextRotationIndices rowSize bStep stride offset)[place]? = some index ∧
      pts[place]? = some (rotateSlots (diagonal place) index)

/-- The transform multiplies each rotation by its diagonal and only uses the listed rotations. -/
def TransformContract (slots : Nat) (R : Type) [CommRing R] (N rowSize bStep : Nat)
    (stride offset : Int) : Prop :=
  ∀ (ctxt : ZMod slots → R) (diagonal : Nat → ZMod slots → R) (pts : List (ZMod slots → R)),
    RotatedDiagonals rowSize bStep stride offset diagonal pts →
      ∃ result, LinearTransform N ctxt rowSize bStep pts stride offset = some result ∧
        result.vector = ∑ place ∈ Finset.range rowSize,
          diagonal place * rotateSlots ctxt ((place : Int) * stride + offset) ∧
        ∀ rotation ∈ result.rotations,
          rotation ∈ GetLinearTransformRotationIndices bStep stride offset

/-- No rotation that the transform issues is trivial. -/
structure ProperRotations (slots N rowSize bStep : Nat) (stride offset : Int) : Prop where
  rows : 1 ≤ rowSize
  babySteps : 1 ≤ bStep
  giantSteps : rowSize ≤ bStep ∨ ((N / 2 : Nat) : Int) ∣ (bStep : Int) * stride ∨
    ¬(slots : Int) ∣ (bStep : Int) * stride
  offsetStep : offset = 0 ∨ ¬(slots : Int) ∣ offset

theorem RotatedDiagonals.getD {rowSize bStep : Nat} {stride offset : Int}
    {diagonal : Nat → ZMod slots → R} {pts : List (ZMod slots → R)}
    (rotated : RotatedDiagonals rowSize bStep stride offset diagonal pts) {place : Nat}
    (inside : place < rowSize) : pts.getD place 0 = rotateSlots (diagonal place)
      (-(bStep : Int) * ((place / bStep : Nat) : Int) * stride - offset) := by
  obtain ⟨index, listed, value⟩ := rotated.2 place inside
  rw [GetLinearTransformPlaintextRotationIndices, List.getElem?_map, List.getElem?_range inside,
    Option.map_some, Option.some.injEq] at listed
  rw [List.getD_eq_getElem?_getD, value, listed]
  rfl

/-- The number of giant steps covers every row. -/
theorem giantSteps_bounds {rowSize bStep : Nat} (rows : 1 ≤ rowSize) (babySteps : 1 ≤ bStep) :
    1 ≤ (rowSize + bStep - 1) / bStep ∧ rowSize ≤ bStep * ((rowSize + bStep - 1) / bStep) := by
  have division := Nat.div_add_mod (rowSize + bStep - 1) bStep
  have small := Nat.mod_lt (rowSize + bStep - 1) babySteps
  constructor
  · exact (Nat.le_div_iff_mul_le babySteps).mpr (by omega)
  · omega

theorem giantSteps_eq_one_iff {rowSize bStep : Nat} (rows : 1 ≤ rowSize) (babySteps : 1 ≤ bStep) :
    (rowSize + bStep - 1) / bStep = 1 ↔ rowSize ≤ bStep := by
  rw [Nat.div_eq_iff babySteps]
  omega

theorem transformContract_of_proper {N rowSize bStep : Nat} {stride offset : Int}
    (positive : 0 < slots) (divides : slots ∣ N / 2)
    (proper : ProperRotations slots N rowSize bStep stride offset) :
    TransformContract slots R N rowSize bStep stride offset := by
  intro ctxt diagonal pts rotated
  have rows := proper.rows
  have babySteps := proper.babySteps
  obtain ⟨started, enough⟩ := giantSteps_bounds rows babySteps
  have giantSteps : (rowSize + bStep - 1) / bStep = 1 ∨
      ((N / 2 : Nat) : Int) ∣ (bStep : Int) * stride ∨ ¬(slots : Int) ∣ (bStep : Int) * stride := by
    rw [giantSteps_eq_one_iff rows babySteps]
    exact proper.giantSteps
  obtain ⟨rotations, loop, known⟩ := @giantLoop_last slots R _ N bStep stride offset positive
    divides _ giantSteps (dotProduct N rowSize bStep ctxt pts stride)
    (hoistedRotations slots N bStep stride) started
  have sum := dotProduct_sum divides babySteps enough ctxt diagonal pts stride offset
    fun place inside => rotated.getD inside
  have listed : ∀ rotation ∈ rotations,
      rotation ∈ GetLinearTransformRotationIndices bStep stride offset := by
    intro rotation member
    rcases known rotation member with hoisted | giant
    · exact hoistedRotations_mem hoisted
    · rw [giant]
      exact GetLinearTransformRotationIndices_step babySteps stride offset
  have accepted : ¬(bStep = 0 ∨ (rowSize + bStep - 1) / bStep = 0 ∨ pts.length < rowSize) := by
    have := rotated.1
    omega
  rw [LinearTransform]
  simp only [if_neg accepted, loop]
  rw [giantStep, if_neg (lt_irrefl 0)]
  by_cases shifted : offset ≠ 0
  · rw [if_pos shifted, issue_eq positive divides _ (proper.offsetStep.resolve_left shifted)]
    refine ⟨_, rfl, sum, ?_⟩
    intro rotation member
    rcases List.mem_append.mp member with before | new
    · exact listed rotation before
    · rw [List.mem_singleton.mp new]
      exact GetLinearTransformRotationIndices_offset shifted bStep stride
  · rw [if_neg shifted]
    refine ⟨_, rfl, ?_, listed⟩
    rw [← sum, not_not.mp shifted, SlotRotation.rotateSlots_zero]

/-- A rejected first giant step rejects the whole loop. -/
theorem giantLoop_none {N bStep : Nat} {stride offset : Int} {results : Nat → ZMod slots → R}
    {hoisted : List Int} {gStep : Nat}
    (rejected : giantLoop N bStep stride offset results hoisted gStep 0 = none) (count : Nat) :
    giantLoop N bStep stride offset results hoisted gStep count = none := by
  induction count with
  | zero => exact rejected
  | succ count ih =>
      rw [giantLoop, ih]
      rfl

/-- Zero plaintexts hold zero diagonals. -/
theorem rotatedDiagonals_zero (rowSize bStep : Nat) (stride offset : Int) :
    RotatedDiagonals rowSize bStep stride offset (fun _ => (0 : ZMod slots → R))
      (List.replicate rowSize 0) := by
  refine ⟨by rw [List.length_replicate], ?_⟩
  intro place inside
  refine ⟨_, by rw [GetLinearTransformPlaintextRotationIndices, List.getElem?_map,
    List.getElem?_range inside, Option.map_some], ?_⟩
  rw [List.getElem?_replicate, if_pos inside]
  rfl

theorem proper_of_transformContract {N rowSize bStep : Nat} {stride offset : Int}
    (positive : 0 < slots) (divides : slots ∣ N / 2)
    (contract : TransformContract slots R N rowSize bStep stride offset) :
    ProperRotations slots N rowSize bStep stride offset := by
  obtain ⟨result, accepted, _⟩ :=
    contract 0 _ _ (rotatedDiagonals_zero rowSize bStep stride offset)
  rw [LinearTransform] at accepted
  by_cases rejected : bStep = 0 ∨ (rowSize + bStep - 1) / bStep = 0 ∨
      (List.replicate rowSize (0 : ZMod slots → R)).length < rowSize
  · rw [if_pos rejected] at accepted
    cases accepted
  · rw [if_neg rejected] at accepted
    rw [not_or, not_or] at rejected
    have babySteps : 1 ≤ bStep := by omega
    have rows : 1 ≤ rowSize := by
      by_contra none
      apply rejected.2.1
      exact Nat.div_eq_of_lt (by omega)
    obtain ⟨started, _⟩ := giantSteps_bounds rows babySteps
    have giantSteps : rowSize ≤ bStep ∨ ((N / 2 : Nat) : Int) ∣ (bStep : Int) * stride ∨
        ¬(slots : Int) ∣ (bStep : Int) * stride := by
      by_contra trivial
      rw [not_or, not_or, not_not] at trivial
      have several : (rowSize + bStep - 1) / bStep ≠ 1 :=
        mt (giantSteps_eq_one_iff rows babySteps).mp trivial.1
      rw [giantLoop_none] at accepted
      · cases accepted
      · rw [giantLoop, giantStep, if_pos (by omega),
          if_pos (mt (tmod_eq_zero_iff _).mp trivial.2.1),
          issue_of_dvd positive divides _ trivial.2.2]
    refine ⟨rows, babySteps, giantSteps, ?_⟩
    by_contra shifted
    rw [not_or, not_not] at shifted
    have steps : (rowSize + bStep - 1) / bStep = 1 ∨
        ((N / 2 : Nat) : Int) ∣ (bStep : Int) * stride ∨
          ¬(slots : Int) ∣ (bStep : Int) * stride := by
      rw [giantSteps_eq_one_iff rows babySteps]
      exact giantSteps
    obtain ⟨rotations, loop, _⟩ := @giantLoop_last slots R _ N bStep stride offset positive
      divides _ steps (dotProduct N rowSize bStep 0 (List.replicate rowSize 0) stride)
      (hoistedRotations slots N bStep stride) started
    rw [loop, giantStep, if_neg (lt_irrefl 0), if_pos shifted.1,
      issue_of_dvd positive divides _ shifted.2] at accepted
    cases accepted

end

/-- The transform is right exactly when none of its rotations is trivial for the slot count. -/
theorem transformContract_iff (R : Type) [CommRing R] (slots N rowSize bStep : Nat)
    (stride offset : Int) (positive : 0 < slots) (divides : slots ∣ N / 2) :
    TransformContract slots R N rowSize bStep stride offset ↔
      ProperRotations slots N rowSize bStep stride offset :=
  ⟨proper_of_transformContract positive divides, transformContract_of_proper positive divides⟩

theorem transformContract_iff_fourRows :
    TransformContract 8 Int 16 4 2 2 0 ↔ ProperRotations 8 16 4 2 2 0 :=
  transformContract_iff Int 8 16 4 2 2 0 (by decide) (by decide)

/-- Two giant steps of distance four are rejected at four slots. -/
theorem transformContract_sparse : ¬TransformContract 4 Int 16 4 2 2 0 := by
  intro contract
  have proper := proper_of_transformContract (by decide) (by decide) contract
  rcases proper.giantSteps with short | whole | distinct
  · exact absurd short (by decide)
  · exact absurd whole (by decide)
  · exact distinct (by decide)

end Fideslib.LinearTransform
