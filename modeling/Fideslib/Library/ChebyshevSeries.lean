/-
This file develops coefficient lists in the Chebyshev basis, with half of the first coefficient.
-/

import Mathlib

namespace ChebyshevSeries

open Polynomial
open Polynomial.Chebyshev (T)

variable {K : Type} [Field K]

/-- The halves of a series share one numeral. -/
scoped instance two_atLeastTwo : Nat.AtLeastTwo 2 := inferInstance

/-- A coefficient past the end of the list is zero. -/
def coefficient (coefficients : List K) (index : Nat) : K := coefficients.getD index 0

/-- The first coefficient of a series counts only half. -/
noncomputable def series (coefficients : List K) : K[X] :=
  ∑ index ∈ Finset.range coefficients.length, C (coefficient coefficients index) * T K index -
    C (coefficient coefficients 0 / 2)

theorem coefficient_of_length_le {coefficients : List K} {index : Nat}
    (past : coefficients.length ≤ index) : coefficient coefficients index = 0 :=
  List.getD_eq_default _ _ past

/-- A series may be summed up to any index past its last coefficient. -/
theorem series_eq_sum (coefficients : List K) {bound : Nat}
    (past : ∀ index, bound ≤ index → coefficient coefficients index = 0) :
    series coefficients =
      ∑ index ∈ Finset.range bound, C (coefficient coefficients index) * T K index -
        C (coefficient coefficients 0 / 2) := by
  have extend : ∀ length : Nat, (∀ index, length ≤ index → coefficient coefficients index = 0) →
      ∑ index ∈ Finset.range length, C (coefficient coefficients index) * T K index =
        ∑ index ∈ Finset.range (max length bound), C (coefficient coefficients index) * T K index := by
    intro length zero
    apply Finset.sum_subset (Finset.range_mono (le_max_left length bound))
    intro index _ outside
    rw [zero index (by simpa using outside)]
    simp
  have shared : ∀ index, max coefficients.length bound ≤ index →
      coefficient coefficients index = 0 :=
    fun index above => past index ((le_max_right _ _).trans above)
  rw [series, extend coefficients.length fun _ above => coefficient_of_length_le above]
  congr 1
  symm
  apply Finset.sum_subset (Finset.range_mono (le_max_right coefficients.length bound))
  intro index _ outside
  rw [past index (by simpa using outside)]
  simp

/-- A series only depends on its coefficients. -/
theorem series_congr {left right : List K}
    (same : ∀ index, coefficient left index = coefficient right index) :
    series left = series right := by
  rw [series_eq_sum left fun index above =>
    (same index).trans (coefficient_of_length_le above), series, same 0]
  simp only [same]

/-- Series add up coefficient by coefficient. -/
theorem series_add {total left right : List K}
    (sum : ∀ index, coefficient total index = coefficient left index + coefficient right index) :
    series total = series left + series right := by
  let bound := max left.length right.length
  have pastLeft : ∀ index, bound ≤ index → coefficient left index = 0 := fun index above =>
    coefficient_of_length_le ((le_max_left _ _).trans above)
  have pastRight : ∀ index, bound ≤ index → coefficient right index = 0 := fun index above =>
    coefficient_of_length_le ((le_max_right _ _).trans above)
  have pastTotal : ∀ index, bound ≤ index → coefficient total index = 0 := by
    intro index above
    rw [sum index, pastLeft index above, pastRight index above, add_zero]
  rw [series_eq_sum total pastTotal, series_eq_sum left pastLeft, series_eq_sum right pastRight]
  simp only [sum, add_div, C_add, add_mul, Finset.sum_add_distrib]
  ring

/-- A series with one coefficient is a multiple of one polynomial of the basis. -/
theorem series_single {coefficients : List K} {place : Nat} {value : K} (positive : 0 < place)
    (single : ∀ index, coefficient coefficients index = if index = place then value else 0) :
    series coefficients = C value * T K place := by
  have past : ∀ index, place + 1 ≤ index → coefficient coefficients index = 0 := by
    intro index above
    rw [single index, if_neg (by omega)]
  have first : coefficient coefficients 0 = 0 := by rw [single 0, if_neg positive.ne]
  rw [series_eq_sum coefficients past, first, Finset.sum_range_succ, Finset.sum_eq_zero]
  · rw [single place, if_pos rfl]
    simp
  · intro index below
    rw [single index, if_neg (Finset.mem_range.mp below).ne]
    simp

/-- The value of a series at a point is half of its first coefficient plus the weighted basis. -/
theorem eval_series [NeZero (2 : K)] (coefficients : List K) (y : K) :
    (series coefficients).eval y = coefficient coefficients 0 / 2 +
      ∑ index ∈ Finset.Ico 1 coefficients.length,
        coefficient coefficients index * (T K index).eval y := by
  have two : (2 : K) ≠ 0 := NeZero.ne 2
  cases coefficients with
  | nil => simp [series, coefficient]
  | cons first rest =>
      rw [series, eval_sub, eval_finsetSum, Finset.range_eq_Ico, List.length_cons,
        Finset.sum_eq_sum_Ico_succ_bot (Nat.succ_pos rest.length)]
      simp only [eval_mul, eval_C, Nat.cast_zero, Polynomial.Chebyshev.T_zero, eval_one, zero_add]
      field_simp
      ring

/-- The value of an even basis polynomial follows from the one at half of its index. -/
theorem eval_T_double (half : Nat) (y : K) :
    (T K (2 * half : Nat)).eval y =
      (T K half).eval y * (T K half).eval y + (T K half).eval y * (T K half).eval y - 1 := by
  have product := congrArg (eval y) (Polynomial.Chebyshev.T_mul_T K half half)
  rw [sub_self, Polynomial.Chebyshev.T_zero, ← two_mul] at product
  simp only [eval_mul, eval_add, eval_one, eval_ofNat] at product
  push_cast
  rw [eq_sub_iff_add_eq, ← product]
  ring

/-- The value of a basis polynomial follows from two that add up to its index. -/
theorem eval_T_add (larger smaller : Nat) {distance : Nat} (apart : larger = smaller + distance)
    (y : K) :
    (T K (larger + smaller : Nat)).eval y =
      (T K larger).eval y * (T K smaller).eval y + (T K larger).eval y * (T K smaller).eval y -
        (T K distance).eval y := by
  have product := congrArg (eval y) (Polynomial.Chebyshev.T_mul_T K larger smaller)
  have difference : (larger : Int) - smaller = distance := by omega
  rw [difference] at product
  simp only [eval_mul, eval_add, eval_ofNat] at product
  push_cast
  rw [eq_sub_iff_add_eq, ← product]
  ring

/-- Removing the right multiple of the top polynomial of the basis lowers a degree bound. -/
theorem natDegree_sub_top_le [NeZero (2 : K)] {bound : Nat} {polynomial : K[X]}
    (small : polynomial.natDegree ≤ bound + 1) :
    (polynomial - C (polynomial.coeff (bound + 1) / 2 ^ bound) * T K (bound + 1)).natDegree ≤
      bound := by
  have two : (2 : K) ^ bound ≠ 0 := pow_ne_zero bound (NeZero.ne 2)
  have height : (T K (bound + 1)).natDegree = bound + 1 := by
    rw [Polynomial.Chebyshev.natDegree_T]
    omega
  have lead : (T K (bound + 1)).coeff (bound + 1) = 2 ^ bound := by
    have leading := Polynomial.Chebyshev.leadingCoeff_T K (bound + 1)
    rw [leadingCoeff, height] at leading
    rw [leading]
    congr 1
  rw [natDegree_le_iff_coeff_eq_zero]
  intro place above
  rw [coeff_sub, coeff_C_mul]
  rcases Nat.lt_or_eq_of_le above with further | next
  · have gone : (T K (bound + 1)).coeff place = 0 :=
      coeff_eq_zero_of_natDegree_lt (by omega)
    rw [gone, coeff_eq_zero_of_natDegree_lt (by omega), mul_zero, sub_zero]
  · rw [← next, lead, div_mul_cancel₀ _ two, sub_self]

variable [DecidableEq K]

/-- This is the position of the last nonzero coefficient, and zero for a zero list. -/
def degree (coefficients : List K) : Nat :=
  Nat.findGreatest (fun index => coefficient coefficients index ≠ 0) coefficients.length

theorem coefficient_of_degree_lt {coefficients : List K} {index : Nat}
    (above : degree coefficients < index) : coefficient coefficients index = 0 := by
  by_cases inside : index ≤ coefficients.length
  · by_contra nonzero
    exact Nat.findGreatest_is_greatest above inside nonzero
  · exact coefficient_of_length_le (not_le.mp inside).le

theorem coefficient_degree_ne_zero {coefficients : List K} (positive : degree coefficients ≠ 0) :
    coefficient coefficients (degree coefficients) ≠ 0 :=
  Nat.findGreatest_of_ne_zero rfl positive

theorem degree_lt_length {coefficients : List K} (positive : degree coefficients ≠ 0) :
    degree coefficients < coefficients.length := by
  by_contra past
  exact coefficient_degree_ne_zero positive (coefficient_of_length_le (not_lt.mp past))

/-- A nonzero coefficient with only zeros after it stands at the degree. -/
theorem degree_eq {coefficients : List K} {place : Nat}
    (nonzero : coefficient coefficients place ≠ 0)
    (zeros : ∀ index, place < index → coefficient coefficients index = 0) :
    degree coefficients = place := by
  have inside : place ≤ coefficients.length := by
    by_contra past
    exact nonzero (coefficient_of_length_le (not_le.mp past).le)
  have least : place ≤ degree coefficients := Nat.le_findGreatest inside nonzero
  by_contra different
  have positive : degree coefficients ≠ 0 := by omega
  exact coefficient_degree_ne_zero positive (zeros _ (by omega))

theorem degree_le {coefficients : List K} {bound : Nat}
    (zeros : ∀ index, bound < index → coefficient coefficients index = 0) :
    degree coefficients ≤ bound := by
  by_contra above
  have positive : degree coefficients ≠ 0 := by omega
  exact coefficient_degree_ne_zero positive (zeros _ (not_le.mp above))

theorem series_eq_sum_degree (coefficients : List K) :
    series coefficients =
      ∑ index ∈ Finset.range (degree coefficients + 1),
        C (coefficient coefficients index) * T K index - C (coefficient coefficients 0 / 2) :=
  series_eq_sum coefficients fun _ above => coefficient_of_degree_lt above

theorem natDegree_series_le [NeZero (2 : K)] (coefficients : List K) :
    (series coefficients).natDegree ≤ degree coefficients := by
  rw [series_eq_sum_degree, natDegree_sub_C]
  apply natDegree_sum_le_of_forall_le
  intro index below
  have term := natDegree_C_mul_le (coefficient coefficients index) (T K index)
  rw [Polynomial.Chebyshev.natDegree_T, Int.natAbs_natCast] at term
  have := Finset.mem_range.mp below
  omega

/-- The degree of a list that is not constant is the degree of its series. -/
theorem natDegree_series [NeZero (2 : K)] {coefficients : List K}
    (positive : degree coefficients ≠ 0) :
    (series coefficients).natDegree = degree coefficients := by
  have top : (C (coefficient coefficients (degree coefficients)) *
      T K (degree coefficients)).natDegree = degree coefficients := by
    rw [natDegree_C_mul (coefficient_degree_ne_zero positive), Polynomial.Chebyshev.natDegree_T,
      Int.natAbs_natCast]
  have lower : (∑ index ∈ Finset.range (degree coefficients),
      C (coefficient coefficients index) * T K index).natDegree ≤ degree coefficients - 1 := by
    apply natDegree_sum_le_of_forall_le
    intro index below
    have term := natDegree_C_mul_le (coefficient coefficients index) (T K index)
    rw [Polynomial.Chebyshev.natDegree_T, Int.natAbs_natCast] at term
    have := Finset.mem_range.mp below
    omega
  rw [series_eq_sum_degree, natDegree_sub_C, Finset.sum_range_succ,
    natDegree_add_eq_right_of_natDegree_lt, top]
  omega

/-- A higher coefficient extends a list. -/
theorem series_append [NeZero (2 : K)] (coefficients : List K) {place : Nat} (value : K)
    (below : degree coefficients < place) :
    series ((List.range place).map (coefficient coefficients) ++ [value]) =
      series coefficients + C value * T K place := by
  let single := List.replicate place (0 : K) ++ [value]
  have lone : ∀ index, coefficient single index = if index = place then value else 0 := by
    intro index
    rcases lt_trichotomy index place with less | equal | more
    · rw [if_neg less.ne, coefficient, List.getD_append _ _ _ _ (by simpa using less)]
      simp [less]
    · simp [coefficient, single, equal]
    · rw [if_neg more.ne', coefficient_of_length_le]
      simpa [single] using more
  rw [← series_single (by omega) lone]
  apply series_add
  intro index
  rw [lone index]
  rcases lt_trichotomy index place with less | equal | more
  · rw [if_neg less.ne, coefficient, List.getD_append _ _ _ _ (by simpa using less)]
    simp [less]
  · have zero : coefficient coefficients index = 0 :=
      coefficient_of_degree_lt (below.trans_eq equal.symm)
    rw [if_pos equal, zero]
    simp [coefficient, equal]
  · rw [if_neg more.ne', coefficient_of_degree_lt (below.trans more), coefficient_of_length_le]
    · simp
    · simpa using more

/-- Every polynomial is the series of a list that ends with its last nonzero coefficient. -/
theorem exists_series [NeZero (2 : K)] (bound : Nat) (polynomial : K[X])
    (small : polynomial.natDegree ≤ bound) :
    ∃ coefficients : List K,
      series coefficients = polynomial ∧ coefficients.length = degree coefficients + 1 := by
  have two : (2 : K) ≠ 0 := NeZero.ne 2
  induction bound generalizing polynomial with
  | zero =>
      refine ⟨[2 * polynomial.coeff 0], ?_, ?_⟩
      · rw [series, List.length_singleton, Finset.sum_range_one]
        simp only [coefficient, List.getD_cons_zero, Nat.cast_zero,
          Polynomial.Chebyshev.T_zero, mul_one]
        rw [← C_sub, eq_C_of_natDegree_le_zero small, coeff_C_zero]
        congr 1
        field_simp
        ring
      · rw [List.length_singleton, Nat.eq_zero_of_le_zero (degree_le fun index above => ?_)]
        exact coefficient_of_length_le above
  | succ bound ih =>
      let top := polynomial.coeff (bound + 1) / 2 ^ bound
      obtain ⟨lower, denotes, trimmed⟩ := ih _ (natDegree_sub_top_le small)
      by_cases zero : top = 0
      · refine ⟨lower, ?_, trimmed⟩
        rw [denotes]
        change polynomial - C top * T K (bound + 1) = polynomial
        rw [zero, C_0, zero_mul, sub_zero]
      · have below : degree lower < bound + 1 := by
          by_cases constant : degree lower = 0
          · omega
          · have equal := natDegree_series constant
            have bounded := natDegree_sub_top_le small
            rw [denotes] at equal
            omega
        refine ⟨(List.range (bound + 1)).map (coefficient lower) ++ [top], ?_, ?_⟩
        · rw [series_append lower top below, denotes]
          push_cast
          exact sub_add_cancel _ _
        · have place : degree ((List.range (bound + 1)).map (coefficient lower) ++ [top]) =
              bound + 1 := by
            apply degree_eq
            · simpa [coefficient] using zero
            · intro index above
              apply coefficient_of_length_le
              simpa using above
          rw [place]
          simp

/-- These are a quotient and a remainder of two series. -/
structure Division (dividend divisor quotient remainder : List K) : Prop where
  sum : series dividend = series quotient * series divisor + series remainder
  small : degree remainder < degree divisor
  trimmed : quotient.length = degree quotient + 1
  nonempty : remainder ≠ []

/-- Division by a series that is not constant is always possible. -/
theorem exists_division [NeZero (2 : K)] (dividend divisor : List K)
    (positive : 0 < degree divisor) :
    ∃ quotient remainder, Division dividend divisor quotient remainder := by
  have height : (series divisor).natDegree = degree divisor := natDegree_series positive.ne'
  obtain ⟨quotient, quotientDenotes, quotientTrimmed⟩ :=
    exists_series _ (series dividend / series divisor) le_rfl
  obtain ⟨remainder, remainderDenotes, remainderTrimmed⟩ :=
    exists_series _ (series dividend % series divisor) le_rfl
  have lower : (series remainder).natDegree < degree divisor := by
    rw [remainderDenotes, ← height]
    exact natDegree_mod_lt (series dividend) (by omega)
  use quotient, remainder
  constructor
  · rw [quotientDenotes, remainderDenotes, mul_comm]
    exact (EuclideanDomain.div_add_mod _ _).symm
  · by_cases constant : degree remainder = 0
    · omega
    · rw [← natDegree_series constant]
      exact lower
  · exact quotientTrimmed
  · apply List.ne_nil_of_length_pos
    omega

namespace Division

variable {dividend divisor quotient remainder : List K} [NeZero (2 : K)]

/-- Degrees subtract when the dividend is at least as high as the divisor. -/
theorem degree_quotient (division : Division dividend divisor quotient remainder)
    (higher : degree divisor < degree dividend) :
    degree quotient = degree dividend - degree divisor := by
  have positive : degree divisor ≠ 0 := by
    have := division.small
    omega
  have top : (series dividend).natDegree = degree dividend := natDegree_series (by omega)
  have low : (series remainder).natDegree ≤ degree remainder := natDegree_series_le remainder
  have product : (series quotient * series divisor).natDegree = degree dividend := by
    have equal : series quotient * series divisor = series dividend - series remainder := by
      rw [division.sum]
      ring
    rw [equal, natDegree_sub_eq_left_of_natDegree_lt, top]
    have := division.small
    omega
  have nonzero : series quotient * series divisor ≠ 0 := by
    intro zero
    rw [zero, natDegree_zero] at product
    omega
  rw [natDegree_mul (left_ne_zero_of_mul nonzero) (right_ne_zero_of_mul nonzero),
    natDegree_series positive] at product
  have bound := natDegree_series_le quotient
  have varied : degree quotient ≠ 0 := by omega
  rw [natDegree_series varied] at product
  omega

/-- A quotient is no higher than the difference to a bound on the dividend. -/
theorem degree_quotient_lt (division : Division dividend divisor quotient remainder) {bound : Nat}
    (below : degree dividend < degree divisor + bound) : degree quotient < max 1 bound := by
  by_cases constant : degree quotient = 0
  · omega
  · have positive : degree divisor ≠ 0 := by
      have := division.small
      omega
    have height := natDegree_series constant
    have divisorHeight := natDegree_series positive
    have nonzero : series quotient ≠ 0 := by
      intro zero
      rw [zero, natDegree_zero] at height
      omega
    have divisorNonzero : series divisor ≠ 0 := by
      intro zero
      rw [zero, natDegree_zero] at divisorHeight
      omega
    have product : (series quotient * series divisor).natDegree =
        degree quotient + degree divisor := by
      rw [natDegree_mul nonzero divisorNonzero, height, divisorHeight]
    have equal : series quotient * series divisor = series dividend - series remainder := by
      rw [division.sum]
      ring
    have small := natDegree_sub_le (series dividend) (series remainder)
    rw [← equal, product] at small
    have dividendLow := natDegree_series_le dividend
    have remainderLow := natDegree_series_le remainder
    have := division.small
    omega

end Division

end ChebyshevSeries
