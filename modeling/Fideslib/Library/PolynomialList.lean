/-
This file develops coefficient lists in the power basis and their division.
-/

import Fideslib.Library.ChebyshevSeries

namespace PolynomialList

open Polynomial
open ChebyshevSeries (coefficient degree coefficient_of_length_le coefficient_of_degree_lt)

variable {K : Type} [Field K]

/-- A list denotes the polynomial with its entries as coefficients. -/
noncomputable def polynomial (coefficients : List K) : K[X] :=
  ∑ index ∈ Finset.range coefficients.length, C (coefficient coefficients index) * X ^ index

theorem coeff_polynomial (coefficients : List K) (index : Nat) :
    (polynomial coefficients).coeff index = coefficient coefficients index := by
  rw [polynomial, finsetSum_coeff]
  simp only [coeff_C_mul, coeff_X_pow, mul_ite, mul_one, mul_zero]
  rw [Finset.sum_ite_eq]
  by_cases inside : index < coefficients.length
  · rw [if_pos (Finset.mem_range.mpr inside)]
  · rw [if_neg (by simpa using inside), coefficient_of_length_le (not_lt.mp inside)]

theorem polynomial_congr {left right : List K}
    (same : ∀ index, coefficient left index = coefficient right index) :
    polynomial left = polynomial right := by
  ext index
  rw [coeff_polynomial, coeff_polynomial, same]

/-- A coefficient that changes by a fixed amount changes the polynomial by one monomial. -/
theorem polynomial_shift {changed original : List K} {place : Nat} {amount : K}
    (shift : ∀ index, coefficient changed index =
      coefficient original index + if index = place then amount else 0) :
    polynomial changed = polynomial original + C amount * X ^ place := by
  ext index
  rw [coeff_add, coeff_C_mul_X_pow, coeff_polynomial, coeff_polynomial, shift]

/-- The value of a polynomial is its constant and the weighted powers. -/
theorem eval_polynomial (coefficients : List K) (x : K) :
    (polynomial coefficients).eval x = coefficient coefficients 0 +
      ∑ index ∈ Finset.range (coefficients.length - 1),
        coefficient coefficients (index + 1) * x ^ (index + 1) := by
  cases coefficients with
  | nil => simp [polynomial, coefficient]
  | cons first rest =>
      rw [polynomial, eval_finsetSum, List.length_cons, Finset.sum_range_succ', Nat.add_sub_cancel,
        add_comm]
      simp only [eval_mul, eval_C, eval_pow, eval_X, pow_zero, mul_one]

variable [DecidableEq K]

theorem natDegree_polynomial (coefficients : List K) :
    (polynomial coefficients).natDegree = degree coefficients := by
  apply le_antisymm
  · rw [natDegree_le_iff_coeff_eq_zero]
    intro index above
    rw [coeff_polynomial]
    exact coefficient_of_degree_lt above
  · apply ChebyshevSeries.degree_le
    intro index above
    rw [← coeff_polynomial]
    exact coeff_eq_zero_of_natDegree_lt above

/-- The value only needs the coefficients up to the degree. -/
theorem eval_polynomial_degree (coefficients : List K) (x : K) :
    (polynomial coefficients).eval x = coefficient coefficients 0 +
      ∑ index ∈ Finset.range (degree coefficients),
        coefficient coefficients (index + 1) * x ^ (index + 1) := by
  rw [eval_eq_sum_range, natDegree_polynomial, Finset.sum_range_succ', add_comm]
  simp only [coeff_polynomial, pow_zero, mul_one]

/-- Every polynomial has a list that ends with its last nonzero coefficient. -/
theorem exists_list (target : K[X]) :
    ∃ coefficients : List K,
      polynomial coefficients = target ∧ coefficients.length = degree coefficients + 1 := by
  let coefficients := (List.range (target.natDegree + 1)).map target.coeff
  have denotes : polynomial coefficients = target := by
    ext index
    rw [coeff_polynomial]
    by_cases inside : index < target.natDegree + 1
    · rw [coefficient, List.getD_eq_getElem?_getD, List.getElem?_map, List.getElem?_range inside]
      rfl
    · rw [coefficient_of_length_le (by simpa [coefficients] using inside),
        coeff_eq_zero_of_natDegree_lt (by omega)]
  use coefficients, denotes
  rw [← natDegree_polynomial, denotes]
  simp [coefficients]

/-- These are a quotient and a remainder of two polynomials. -/
structure Division (dividend divisor quotient remainder : List K) : Prop where
  sum : polynomial dividend = polynomial quotient * polynomial divisor + polynomial remainder
  small : degree remainder < degree divisor
  trimmed : quotient.length = degree quotient + 1
  nonempty : remainder ≠ []

/-- Division by a polynomial that is not constant is always possible. -/
theorem exists_division (dividend divisor : List K) (positive : 0 < degree divisor) :
    ∃ quotient remainder, Division dividend divisor quotient remainder := by
  obtain ⟨quotient, quotientDenotes, quotientTrimmed⟩ :=
    exists_list (polynomial dividend / polynomial divisor)
  obtain ⟨remainder, remainderDenotes, remainderTrimmed⟩ :=
    exists_list (polynomial dividend % polynomial divisor)
  use quotient, remainder
  constructor
  · rw [quotientDenotes, remainderDenotes, mul_comm]
    exact (EuclideanDomain.div_add_mod _ _).symm
  · rw [← natDegree_polynomial, ← natDegree_polynomial divisor, remainderDenotes]
    apply natDegree_mod_lt
    rw [natDegree_polynomial]
    omega
  · exact quotientTrimmed
  · apply List.ne_nil_of_length_pos
    omega

namespace Division

variable {dividend divisor quotient remainder : List K}

theorem product (division : Division dividend divisor quotient remainder) :
    polynomial quotient * polynomial divisor = polynomial dividend - polynomial remainder := by
  rw [division.sum]
  ring

/-- Degrees subtract when the dividend is at least as high as the divisor. -/
theorem degree_quotient (division : Division dividend divisor quotient remainder)
    (higher : degree divisor ≤ degree dividend) :
    degree quotient = degree dividend - degree divisor := by
  have small := division.small
  have height : (polynomial quotient * polynomial divisor).natDegree = degree dividend := by
    rw [division.product, natDegree_sub_eq_left_of_natDegree_lt, natDegree_polynomial]
    rw [natDegree_polynomial, natDegree_polynomial]
    omega
  have nonzero : polynomial quotient * polynomial divisor ≠ 0 := by
    intro zero
    rw [zero, natDegree_zero] at height
    omega
  rw [natDegree_mul (left_ne_zero_of_mul nonzero) (right_ne_zero_of_mul nonzero),
    natDegree_polynomial, natDegree_polynomial] at height
  omega

/-- A quotient is no higher than the difference to a bound on the dividend. -/
theorem degree_quotient_lt (division : Division dividend divisor quotient remainder) {bound : Nat}
    (below : degree dividend < degree divisor + bound) : degree quotient < max 1 bound := by
  by_cases zero : polynomial quotient = 0
  · have low := natDegree_polynomial quotient
    rw [zero, natDegree_zero] at low
    omega
  · have small := division.small
    have divisorNonzero : polynomial divisor ≠ 0 := by
      intro zero
      have low := natDegree_polynomial divisor
      rw [zero, natDegree_zero] at low
      omega
    have height := natDegree_mul zero divisorNonzero
    have bounded := natDegree_sub_le (polynomial dividend) (polynomial remainder)
    rw [← division.product, height] at bounded
    simp only [natDegree_polynomial] at bounded
    omega

/-- The quotient of monic polynomials is monic. -/
theorem monic_quotient (division : Division dividend divisor quotient remainder)
    (higher : degree divisor ≤ degree dividend)
    (dividendMonic : coefficient dividend (degree dividend) = 1)
    (divisorMonic : coefficient divisor (degree divisor) = 1) :
    coefficient quotient (degree quotient) = 1 := by
  have small := division.small
  have same := division.degree_quotient higher
  have leading := congrArg (fun side => side.coeff (degree dividend)) division.product
  have top : degree dividend = (polynomial quotient).natDegree + (polynomial divisor).natDegree := by
    rw [natDegree_polynomial, natDegree_polynomial]
    omega
  simp only [coeff_sub, coeff_polynomial, dividendMonic] at leading
  rw [coefficient_of_degree_lt (show degree remainder < degree dividend by omega), sub_zero, top,
    coeff_mul_degree_add_degree, leadingCoeff, leadingCoeff, natDegree_polynomial,
    natDegree_polynomial, coeff_polynomial, coeff_polynomial, divisorMonic, mul_one] at leading
  exact leading

end Division

end PolynomialList
