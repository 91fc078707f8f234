/-
This file models the linear transform of level budget one and proves which baby steps cover it.
-/

import Fideslib.Library.NestedTable
import Fideslib.Library.PartialLists
import Fideslib.LinearTransform.BabyGiant

namespace Fideslib.LinearTransform

open SlotRotation (rotateSlots)

/-- The square root is rounded up. -/
def ceilSqrt (slots : Nat) : Nat :=
  ((List.range slots).find? fun root => slots ≤ root * root).getD slots

/-- A configured dimension of zero asks for the default. -/
def babyStep (m_dim1 slots : Nat) : Nat :=
  if m_dim1 = 0 then ceilSqrt slots else m_dim1

/-- The nested loops visit these rows, and the number of giant steps is rounded down. -/
def visitedRows (slots bStep : Nat) : List Nat :=
  (List.range (slots / bStep)).flatMap fun j => (List.range bStep).map fun i => bStep * j + i

/-- A row that no giant step visits stays null. -/
def Aptr {Row : Type} (slots bStep : Nat) (A : List Row) : List (Option Row) :=
  NestedTable.fill
    (((visitedRows slots bStep).filter (· < slots)).map fun place => (place, A[place]?))
    (List.replicate slots none)

section

variable {Row : Type} {slots bStep : Nat}

theorem mem_visitedRows (positive : 0 < bStep) (place : Nat) :
    place ∈ visitedRows slots bStep ↔ place < bStep * (slots / bStep) := by
  simp only [visitedRows, List.mem_flatMap, List.mem_map, List.mem_range]
  constructor
  · rintro ⟨j, inRange, i, small, rfl⟩
    calc bStep * j + i < bStep * (j + 1) := by rw [Nat.mul_add, mul_one]; omega
      _ ≤ bStep * (slots / bStep) := Nat.mul_le_mul_left _ inRange
  · intro inside
    exact ⟨place / bStep, Nat.div_lt_of_lt_mul inside, place % bStep, Nat.mod_lt _ positive,
      Nat.div_add_mod place bStep⟩

theorem visitedRows_nodup : (visitedRows slots bStep).Nodup := by
  apply PartialLists.nodup_flatMap_of_key (fun place => place / bStep) List.nodup_range
  · intro j _
    apply PartialLists.nodup_map_of_key (fun place => place - bStep * j) List.nodup_range
    intro i _
    omega
  · intro j _ place member
    obtain ⟨i, inside, rfl⟩ := List.mem_map.mp member
    have small := List.mem_range.mp inside
    rw [Nat.mul_add_div (by omega), Nat.div_eq_of_lt small, add_zero]

@[simp] theorem length_Aptr (slots bStep : Nat) (A : List Row) :
    (Aptr slots bStep A).length = slots := by
  rw [Aptr, NestedTable.length_fill, List.length_replicate]

/-- A visited row points to its plaintext. -/
theorem Aptr_visited (positive : 0 < bStep) {place : Nat} (inside : place < slots)
    (visited : place < bStep * (slots / bStep)) (A : List Row) :
    (Aptr slots bStep A)[place]? = some A[place]? := by
  have distinct : ((((visitedRows slots bStep).filter (· < slots)).map
      fun place => (place, A[place]?)).map Prod.fst).Nodup := by
    rw [List.map_map]
    apply PartialLists.nodup_map_of_key id (visitedRows_nodup.filter _)
    intro row _
    rfl
  have written : (place, A[place]?) ∈ ((visitedRows slots bStep).filter (· < slots)).map
      fun place => (place, A[place]?) := by
    apply List.mem_map_of_mem
    rw [List.mem_filter]
    exact ⟨(mem_visitedRows positive place).mpr visited, decide_eq_true inside⟩
  exact NestedTable.fill_written distinct written (by rwa [List.length_replicate])

theorem Aptr_unvisited (positive : 0 < bStep) {place : Nat} (inside : place < slots)
    (unvisited : bStep * (slots / bStep) ≤ place) (A : List Row) :
    (Aptr slots bStep A)[place]? = some none := by
  rw [Aptr, NestedTable.fill_untouched, List.getElem?_replicate, if_pos inside]
  intro write member
  obtain ⟨row, listed, rfl⟩ := List.mem_map.mp member
  have visited := (mem_visitedRows positive row).mp (List.mem_filter.mp listed).1
  change row ≠ place
  omega

/-- A baby step that divides the slots leaves no row null. -/
theorem Aptr_complete (positive : 0 < bStep) (whole : bStep ∣ slots) {A : List Row}
    (enough : slots ≤ A.length) : Aptr slots bStep A = (A.take slots).map some := by
  apply List.ext_getElem?
  intro place
  by_cases inside : place < slots
  · rw [Aptr_visited positive inside (by rwa [Nat.mul_div_cancel' whole]), List.getElem?_map,
      List.getElem?_take_of_lt inside, List.getElem?_eq_getElem (by omega)]
    rfl
  · rw [List.getElem?_eq_none (by rw [length_Aptr]; omega), List.getElem?_eq_none]
    rw [List.length_map, List.length_take]
    omega

/-- Any other baby step leaves the last row null. -/
theorem Aptr_null (positive : 0 < slots) (uneven : ¬bStep ∣ slots) (A : List Row) :
    none ∈ Aptr slots bStep A := by
  have last : (Aptr slots bStep A)[slots - 1]? = some none := by
    rcases Nat.eq_zero_or_pos bStep with zero | steps
    · rw [Aptr, NestedTable.fill_untouched, List.getElem?_replicate, if_pos (by omega)]
      rw [visitedRows, zero]
      simp
    · apply Aptr_unvisited steps (by omega)
      have below := Nat.mul_div_le slots bStep
      have different : bStep * (slots / bStep) ≠ slots := fun same =>
        uneven (Dvd.intro _ same)
      omega
  exact List.mem_of_getElem? last

end

section

variable {S : Nat} {R : Type} [CommRing R]

/-- The transform dereferences every pointer that it receives. -/
def EvalLinearTransform (N slots bStep : Nat) (A : List (ZMod S → R)) (ctxt : ZMod S → R) :
    Option (Issued S R) := do
  let pts ← (Aptr slots bStep A).mapM id
  LinearTransform N ctxt slots bStep pts 1 0

/-- Every row is passed once, and the transform multiplies each rotation by its diagonal. -/
def AppliesAllRows (S : Nat) (R : Type) [CommRing R] (N slots bStep : Nat) : Prop :=
  ∀ (ctxt : ZMod S → R) (diagonal : Nat → ZMod S → R) (A : List (ZMod S → R)),
    RotatedDiagonals slots bStep 1 0 diagonal A →
      Aptr slots bStep A = (A.take slots).map some ∧
        ∃ result, EvalLinearTransform N slots bStep A ctxt = some result ∧
          result.vector = ∑ place ∈ Finset.range slots, diagonal place * rotateSlots ctxt place

variable {N slots bStep : Nat}

theorem EvalLinearTransform_complete (positive : 0 < bStep) (whole : bStep ∣ slots)
    {A : List (ZMod S → R)} (enough : slots ≤ A.length) (ctxt : ZMod S → R) :
    EvalLinearTransform N slots bStep A ctxt =
      LinearTransform N ctxt slots bStep (A.take slots) 1 0 := by
  rw [EvalLinearTransform, Aptr_complete positive whole enough, PartialLists.mapM_pointers]
  rfl

/-- A null row stops the transform. -/
theorem EvalLinearTransform_null (positive : 0 < slots) (uneven : ¬bStep ∣ slots)
    (A : List (ZMod S → R)) (ctxt : ZMod S → R) :
    EvalLinearTransform N slots bStep A ctxt = none := by
  rw [EvalLinearTransform, PartialLists.mapM_eq_none (Aptr_null positive uneven A) rfl]
  rfl

omit [CommRing R] in
theorem RotatedDiagonals.take {rowSize : Nat} {stride offset : Int}
    {diagonal : Nat → ZMod S → R} {pts : List (ZMod S → R)}
    (rotated : RotatedDiagonals rowSize bStep stride offset diagonal pts) :
    RotatedDiagonals rowSize bStep stride offset diagonal (pts.take rowSize) := by
  refine ⟨by rw [List.length_take]; exact le_min le_rfl rotated.1, ?_⟩
  intro place inside
  rw [List.getElem?_take_of_lt inside]
  exact rotated.2 place inside

/-- A baby step below the number of slots is a proper rotation. -/
theorem properRotations_of_dvd (positive : 0 < slots) (fits : slots ∣ S) (full : 0 < S)
    (whole : bStep ∣ slots) : ProperRotations S N slots bStep 1 0 := by
  have babySteps : 0 < bStep := Nat.pos_of_dvd_of_pos whole positive
  have below := Nat.le_of_dvd positive whole
  have inside := Nat.le_of_dvd full fits
  refine ⟨positive, babySteps, ?_, Or.inl rfl⟩
  rcases Nat.lt_or_eq_of_le below with smaller | same
  · right
    right
    rw [mul_one, Int.natCast_dvd_natCast]
    exact Nat.not_dvd_of_pos_of_lt babySteps (smaller.trans_le inside)
  · exact Or.inl same.ge

theorem appliesAllRows_of_dvd (positive : 0 < slots) (fits : slots ∣ S) (full : 0 < S)
    (ring : S ∣ N / 2) (whole : bStep ∣ slots) : AppliesAllRows S R N slots bStep := by
  intro ctxt diagonal A rotated
  have babySteps : 0 < bStep := Nat.pos_of_dvd_of_pos whole positive
  have contract := @transformContract_of_proper S R _ N slots bStep 1 0 full ring
    (properRotations_of_dvd positive fits full whole)
  obtain ⟨result, done, sum, _⟩ := contract ctxt diagonal (A.take slots) rotated.take
  refine ⟨Aptr_complete babySteps whole rotated.1, result, ?_, ?_⟩
  · rw [EvalLinearTransform_complete babySteps whole rotated.1, done]
  · simpa only [mul_one, add_zero] using sum

theorem appliesAllRows_iff_dvd (positive : 0 < slots) (fits : slots ∣ S) (full : 0 < S)
    (ring : S ∣ N / 2) : AppliesAllRows S R N slots bStep ↔ bStep ∣ slots := by
  constructor
  · intro applies
    by_contra uneven
    obtain ⟨_, result, done, _⟩ := applies 0 _ _ (rotatedDiagonals_zero slots bStep 1 0)
    rw [EvalLinearTransform_null positive uneven] at done
    cases done
  · exact appliesAllRows_of_dvd positive fits full ring

end

/-- The level-one transform applies every row exactly when its baby step divides the slots. -/
theorem appliesAllRows_iff (S : Nat) (R : Type) [CommRing R] (N slots m_dim1 : Nat)
    (positive : 0 < slots) (fits : slots ∣ S) (full : 0 < S) (ring : S ∣ N / 2) :
    AppliesAllRows S R N slots (babyStep m_dim1 slots) ↔ babyStep m_dim1 slots ∣ slots :=
  appliesAllRows_iff_dvd positive fits full ring

theorem appliesAllRows_iff_fourSlots :
    AppliesAllRows 4 Int 16 4 (babyStep 0 4) ↔ babyStep 0 4 ∣ 4 :=
  appliesAllRows_iff 4 Int 16 4 0 (by decide) dvd_rfl (by decide) (by decide)

/-- The default baby step of eight slots is three, as a configured one can be. -/
theorem appliesAllRows_eightSlots :
    ¬AppliesAllRows 8 Int 32 8 (babyStep 0 8) ∧ ¬AppliesAllRows 8 Int 32 8 (babyStep 3 8) := by
  have uneven : ∀ bStep, ¬bStep ∣ 8 → ¬AppliesAllRows 8 Int 32 8 bStep := fun bStep uneven =>
    mt (appliesAllRows_iff_dvd (by decide) dvd_rfl (by decide) (by decide)).mp uneven
  exact ⟨uneven _ (by decide), uneven _ (by decide)⟩

end Fideslib.LinearTransform
