/-
This file proves that one level of the recursion splits a series into two factors and a remainder.
-/

import Fideslib.Chebyshev.PatersonStockmeyer

namespace Fideslib.Chebyshev

open Polynomial
open Polynomial.Chebyshev (T)
open ChebyshevSeries (Division coefficient series)

section

variable {K : Type} [Field K]

theorem length_resize (coefficients : List K) (size : Nat) :
    (resize coefficients size).length = size := List.takeD_length size coefficients 0

theorem coefficient_resize (coefficients : List K) (size index : Nat) :
    coefficient (resize coefficients size) index =
      if index < size then coefficient coefficients index else 0 := by
  induction size generalizing coefficients index with
  | zero => simp [resize, coefficient]
  | succ size ih =>
      cases index with
      | zero => cases coefficients <;> simp [resize, coefficient]
      | succ index =>
          have shifted := ih coefficients.tail index
          cases coefficients with
          | nil => simp [resize, coefficient]
          | cons front rest => simpa [resize, coefficient] using shifted

theorem coefficient_set (coefficients : List K) {place : Nat} (value : K) (index : Nat)
    (inside : place < coefficients.length) :
    coefficient (coefficients.set place value) index =
      if index = place then value else coefficient coefficients index := by
  simp only [coefficient, List.getD_eq_getElem?_getD, List.getElem?_set]
  by_cases same : place = index
  · rw [if_pos same, if_pos (same ▸ inside), if_pos same.symm, Option.getD_some]
  · rw [if_neg same, if_neg fun equal => same equal.symm]

omit [Field K] in
theorem length_setBack (coefficients : List K) (value : K) :
    (setBack coefficients value).length = coefficients.length := List.length_set

theorem coefficient_setBack (coefficients : List K) {place : Nat} (value : K) (index : Nat)
    (back : coefficients.length = place + 1) :
    coefficient (setBack coefficients value) index =
      if index = place then value else coefficient coefficients index := by
  have last : coefficients.length - 1 = place := by omega
  rw [setBack, last]
  exact coefficient_set coefficients value index (by omega)

/-- A coefficient that changes by a fixed amount changes the series by one basis polynomial. -/
theorem series_shift {changed original : List K} {place : Nat} {amount : K} (positive : 0 < place)
    (shift : ∀ index, coefficient changed index =
      coefficient original index + if index = place then amount else 0) :
    series changed = series original + C amount * T K place := by
  let single := setBack (resize [] (place + 1)) amount
  have lone : ∀ index, coefficient single index = if index = place then amount else 0 := by
    intro index
    rw [coefficient_setBack _ _ _ (length_resize [] (place + 1)), coefficient_resize]
    simp [coefficient]
  rw [← ChebyshevSeries.series_single positive lone]
  apply ChebyshevSeries.series_add
  intro index
  rw [shift index, lone index]

variable [DecidableEq K]

/-- These lists differ by the basis polynomial of one index, which is on top of the larger one. -/
structure Raised (place : Nat) (original raised : List K) : Prop where
  series : series raised = series original + T K place
  degree : ChebyshevSeries.degree raised = place
  length : raised.length = place + 1

omit [DecidableEq K] in
/-- Setting the back of a resized list to one raises one coefficient. -/
theorem coefficient_setBack_one {original : List K} {place : Nat}
    (below : ∀ index, place ≤ index → coefficient original index = 0) (index : Nat) :
    coefficient (setBack (resize original (place + 1)) 1) index =
      coefficient original index + if index = place then 1 else 0 := by
  rw [coefficient_setBack _ _ _ (length_resize original (place + 1)), coefficient_resize]
  rcases lt_trichotomy index place with less | equal | more
  · rw [if_neg less.ne, if_pos (by omega), if_neg less.ne, add_zero]
  · rw [if_pos equal, if_pos equal, below index equal.ge, zero_add]
  · rw [if_neg more.ne', if_neg (by omega), if_neg more.ne', add_zero, below index more.le]

theorem degree_setBack_one {original : List K} {place : Nat}
    (below : ∀ index, place ≤ index → coefficient original index = 0) :
    ChebyshevSeries.degree (setBack (resize original (place + 1)) 1) = place := by
  apply ChebyshevSeries.degree_eq
  · rw [coefficient_setBack_one below, if_pos rfl, below place le_rfl, zero_add]
    exact one_ne_zero
  · intro index above
    rw [coefficient_setBack_one below, if_neg above.ne', add_zero]
    exact below index above.le

omit [DecidableEq K] in
theorem length_setBack_one (original : List K) (place : Nat) :
    (setBack (resize original (place + 1)) 1).length = place + 1 := by
  rw [length_setBack, length_resize]

/-- Setting the back of a resized list to one adds a basis polynomial on top. -/
theorem setBack_raised {original : List K} {place : Nat} (positive : 0 < place)
    (below : ChebyshevSeries.degree original < place) :
    Raised place original (setBack (resize original (place + 1)) 1) := by
  have zeros : ∀ index, place ≤ index → coefficient original index = 0 := fun index above =>
    ChebyshevSeries.coefficient_of_degree_lt (below.trans_le above)
  constructor
  · rw [series_shift positive (coefficient_setBack_one zeros), C_1, one_mul]
  · exact degree_setBack_one zeros
  · exact length_setBack_one original place

/-- The divisor is one basis polynomial. -/
theorem divisor_raised {place : Nat} (positive : 0 < place) :
    Raised place ([] : List K) (setBack (List.replicate (place + 1) 0) 1) := by
  have empty : ChebyshevSeries.degree ([] : List K) < place := by
    rw [Nat.eq_zero_of_le_zero (ChebyshevSeries.degree_le fun index _ => ?_)]
    · exact positive
    · simp [coefficient]
  have padded : List.replicate (place + 1) (0 : K) = resize [] (place + 1) := by
    rw [resize, List.takeD_nil]
  rw [padded]
  exact setBack_raised positive empty

theorem degree_of_ne_nil {coefficients : List K} (nonempty : coefficients ≠ []) :
    Degree coefficients = some (ChebyshevSeries.degree coefficients) := if_neg nonempty

/-- Trailing zeros are cut before the list is filled up. -/
theorem raisedCoefficients_eq {coefficients : List K} (nonempty : coefficients ≠ []) (k m : Nat) :
    ∃ trimmed : List K, (∀ index, coefficient trimmed index = coefficient coefficients index) ∧
      raisedCoefficients k m coefficients =
        some (setBack (resize trimmed (2 * (k * 2 ^ (m - 1) - k) + k + 1)) 1) := by
  refine ⟨resize coefficients (ChebyshevSeries.degree coefficients + 1), ?_, ?_⟩
  · intro index
    rw [coefficient_resize]
    by_cases inside : index < ChebyshevSeries.degree coefficients + 1
    · rw [if_pos inside]
    · rw [if_neg inside, ChebyshevSeries.coefficient_of_degree_lt (by omega)]
  · rw [raisedCoefficients, degree_of_ne_nil nonempty]
    rfl

theorem raisedCoefficients_raised {coefficients : List K} {k m : Nat} (nonempty : coefficients ≠ [])
    (below : ChebyshevSeries.degree coefficients < 2 * (k * 2 ^ (m - 1) - k) + k) :
    ∃ raised, raisedCoefficients k m coefficients = some raised ∧
      Raised (2 * (k * 2 ^ (m - 1) - k) + k) coefficients raised := by
  obtain ⟨trimmed, same, result⟩ := raisedCoefficients_eq nonempty k m
  have low : ChebyshevSeries.degree trimmed ≤ ChebyshevSeries.degree coefficients := by
    apply ChebyshevSeries.degree_le
    intro index above
    rw [same, ChebyshevSeries.coefficient_of_degree_lt above]
  have holds := setBack_raised (show 0 < 2 * (k * 2 ^ (m - 1) - k) + k by omega)
    (low.trans_lt below)
  refine ⟨_, result, ?_, holds.degree, holds.length⟩
  rw [holds.series, ChebyshevSeries.series_congr same]

/-- The remainder loses one at an index whether or not it reaches it. -/
theorem subtractPower_shift {place : Nat} {remainder : List K} (nonempty : remainder ≠ []) :
    ∃ lowered, subtractPower place remainder = some lowered ∧ lowered ≠ [] ∧
      ∀ index, coefficient lowered index =
        coefficient remainder index + if index = place then -1 else 0 := by
  rw [subtractPower, degree_of_ne_nil nonempty]
  simp only [Option.bind_eq_bind, Option.bind_some]
  by_cases reaches : place ≤ ChebyshevSeries.degree remainder
  · rw [if_pos reaches]
    refine ⟨_, rfl, ?_, ?_⟩
    · apply List.ne_nil_of_length_pos
      rw [List.length_set, length_resize]
      omega
    · intro index
      change coefficient (List.set _ place (coefficient _ place - 1)) index = _
      rw [coefficient_set _ _ _ (by rw [length_resize]; omega), coefficient_resize,
        coefficient_resize, if_pos (show place < _ by omega)]
      by_cases same : index = place
      · rw [if_pos same, if_pos same, same, sub_eq_add_neg]
      · rw [if_neg same, if_neg same, add_zero]
        by_cases inside : index < ChebyshevSeries.degree remainder + 1
        · rw [if_pos inside]
        · rw [if_neg inside, ChebyshevSeries.coefficient_of_degree_lt (by omega)]
  · rw [if_neg reaches]
    refine ⟨_, rfl, ?_, ?_⟩
    · apply List.ne_nil_of_length_pos
      rw [length_setBack, length_resize]
      omega
    · intro index
      rw [coefficient_setBack _ _ _ (length_resize remainder (place + 1)), coefficient_resize]
      rcases lt_trichotomy index place with less | equal | more
      · rw [if_neg less.ne, if_pos (by omega), if_neg less.ne, add_zero]
      · rw [if_pos equal, if_pos equal,
          ChebyshevSeries.coefficient_of_degree_lt (by omega), zero_add]
      · rw [if_neg more.ne', if_neg (by omega), if_neg more.ne', add_zero,
          ChebyshevSeries.coefficient_of_degree_lt (by omega)]

theorem degree_of_shift {place : Nat} {amount : K} {changed original : List K}
    (shift : ∀ index, coefficient changed index =
      coefficient original index + if index = place then amount else 0) :
    ChebyshevSeries.degree changed ≤ max (ChebyshevSeries.degree original) place := by
  apply ChebyshevSeries.degree_le
  intro index above
  rw [shift, if_neg (by omega), add_zero]
  exact ChebyshevSeries.coefficient_of_degree_lt (by omega)

/-- The remainder loses one basis polynomial. -/
theorem subtractPower_spec {place : Nat} {remainder : List K} (nonempty : remainder ≠ [])
    (positive : 0 < place) :
    ∃ lowered, subtractPower place remainder = some lowered ∧ lowered ≠ [] ∧
      series remainder = series lowered + T K place ∧
        ChebyshevSeries.degree lowered ≤ max (ChebyshevSeries.degree remainder) place := by
  obtain ⟨lowered, subtracted, loweredNonempty, shift⟩ := @subtractPower_shift K _ _ place _ nonempty
  refine ⟨lowered, subtracted, loweredNonempty, ?_, degree_of_shift shift⟩
  rw [series_shift positive shift, C_neg, C_1]
  ring

/-- The long division returns a quotient and a remainder below the divisor. -/
def DividesSeries (LongDivisionChebyshev : List K → List K → LongDiv K) : Prop :=
  ∀ dividend divisor, dividend ≠ [] → 0 < ChebyshevSeries.degree divisor →
    Division dividend divisor (LongDivisionChebyshev dividend divisor).q
      (LongDivisionChebyshev dividend divisor).r

/-- These are the four lists of one level of the recursion. -/
structure Split (k place : Nat) (f q c s2 : List K) : Prop where
  sum : series f = (T K (place + k : Nat) + series c) * series q + series s2
  degreeQ : ChebyshevSeries.degree q = place
  lengthQ : q.length = place + 1
  degreeS : ChebyshevSeries.degree s2 = place
  lengthS : s2.length = place + 1
  degreeC : ChebyshevSeries.degree c < k
  lengthC : c.length = ChebyshevSeries.degree c + 1

/-- Both divisions split a series of degree k(2^m - 1). -/
theorem exists_split [NeZero (2 : K)] {LongDivisionChebyshev : List K → List K → LongDiv K}
    (divides : DividesSeries LongDivisionChebyshev) {k place : Nat} (positive : 0 < k)
    (placePositive : 0 < place) {f : List K}
    (degree : ChebyshevSeries.degree f = 2 * place + k) :
    let divqr := LongDivisionChebyshev f (setBack (List.replicate (place + k + 1) 0) 1)
    ∃ r2, subtractPower place divqr.r = some r2 ∧
      Split k place f divqr.q (LongDivisionChebyshev r2 divqr.q).q
        (setBack (resize (LongDivisionChebyshev r2 divqr.q).r (place + 1)) 1) := by
  intro divqr
  have nonempty : f ≠ [] := by
    intro empty
    have bound := ChebyshevSeries.degree_lt_length (show ChebyshevSeries.degree f ≠ 0 by omega)
    rw [empty, List.length_nil] at bound
    omega
  have divisor := @divisor_raised K _ _ (place + k) (by omega)
  have first : Division f _ divqr.q divqr.r :=
    divides f _ nonempty (by rw [divisor.degree]; omega)
  have degreeQ : ChebyshevSeries.degree divqr.q = place := by
    rw [first.degree_quotient (by rw [divisor.degree]; omega), divisor.degree]
    omega
  have small := first.small
  rw [divisor.degree] at small
  obtain ⟨r2, subtracted, r2Nonempty, difference, r2Degree⟩ :=
    subtractPower_spec first.nonempty placePositive
  have second : Division r2 divqr.q _ _ := divides r2 divqr.q r2Nonempty (by omega)
  have secondSmall := second.small
  rw [degreeQ] at secondSmall
  have raised := setBack_raised placePositive secondSmall
  refine ⟨r2, subtracted, ?_, degreeQ, ?_, raised.degree, raised.length, ?_, second.trimmed⟩
  · have whole := first.sum
    have inner := second.sum
    rw [divisor.series, difference, inner] at whole
    have empty : series ([] : List K) = 0 := by simp [series, coefficient]
    rw [whole, raised.series, empty]
    push_cast
    ring
  · rw [first.trimmed, degreeQ]
  · have bound := second.degree_quotient_lt (show ChebyshevSeries.degree r2 <
      ChebyshevSeries.degree divqr.q + k by omega)
    omega

end

end Fideslib.Chebyshev
