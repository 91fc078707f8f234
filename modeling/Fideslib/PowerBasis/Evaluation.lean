/-
This file proves that the recursion on the powers returns the value of the polynomial.
-/

import Fideslib.Chebyshev.Splitting
import Fideslib.Library.PolynomialList
import Fideslib.PowerBasis.PatersonStockmeyer
import Fideslib.PowerBasis.Powers

namespace Fideslib.PowerBasis

open Fideslib.Chebyshev (LongDiv degree_of_ne_nil setBack resize subtractPower)
open ChebyshevSeries (coefficient degree)
open Polynomial
open PolynomialList (Division polynomial)

section

variable {K : Type} [Field K] [DecidableEq K]

/-- The long division returns a quotient and a remainder below the divisor. -/
def DividesPolynomial (LongDivisionPoly : List K → List K → LongDiv K) : Prop :=
  ∀ dividend divisor, dividend ≠ [] → 0 < ChebyshevSeries.degree divisor →
    Division dividend divisor (LongDivisionPoly dividend divisor).q
      (LongDivisionPoly dividend divisor).r

/-- These lists differ by the monomial of one index, which is on top of the larger one. -/
structure MonicList (place : Nat) (coefficients : List K) : Prop where
  degree : ChebyshevSeries.degree coefficients = place
  length : coefficients.length = place + 1
  top : coefficient coefficients place = 1

theorem setBack_monic {original : List K} {place : Nat}
    (below : ∀ index, place ≤ index → coefficient original index = 0) :
    MonicList place (setBack (resize original (place + 1)) 1) := by
  refine ⟨Chebyshev.degree_setBack_one below, Chebyshev.length_setBack_one original place, ?_⟩
  rw [Chebyshev.coefficient_setBack_one below, if_pos rfl, below place le_rfl, zero_add]

omit [DecidableEq K] in
theorem polynomial_setBack {original : List K} {place : Nat}
    (below : ∀ index, place ≤ index → coefficient original index = 0) :
    polynomial (setBack (resize original (place + 1)) 1) = polynomial original + X ^ place := by
  rw [PolynomialList.polynomial_shift (Chebyshev.coefficient_setBack_one below), C_1, one_mul]

omit [DecidableEq K] in
/-- The divisor is one monomial. -/
theorem divisor_eq (place : Nat) :
    setBack (List.replicate (place + 1) (0 : K)) 1 = setBack (resize [] (place + 1)) 1 := by
  rw [resize, List.takeD_nil]

/-- These are the four lists of one level of the recursion. -/
structure Split (k place : Nat) (f q c s2 : List K) : Prop where
  sum : polynomial f = (X ^ (place + k) + polynomial c) * polynomial q + polynomial s2
  monicQ : MonicList place q
  monicS : MonicList place s2
  degreeC : degree c < k
  lengthC : c.length = degree c + 1

/-- Both divisions split a monic polynomial of degree k(2^m - 1). -/
theorem exists_split {LongDivisionPoly : List K → List K → LongDiv K}
    (divides : DividesPolynomial LongDivisionPoly) {k place : Nat} (positive : 0 < k)
    (placePositive : 0 < place) {f : List K} (monic : MonicList (2 * place + k) f) :
    let divqr := LongDivisionPoly f (setBack (List.replicate (place + k + 1) 0) 1)
    ∃ r2, subtractPower place divqr.r = some r2 ∧
      Split k place f divqr.q (LongDivisionPoly r2 divqr.q).q
        (setBack (resize (LongDivisionPoly r2 divqr.q).r (place + 1)) 1) := by
  rw [divisor_eq]
  intro divqr
  have nonempty : f ≠ [] := by
    apply List.ne_nil_of_length_pos
    rw [monic.length]
    omega
  have zeros : ∀ index, place + k ≤ index → coefficient ([] : List K) index = 0 := by
    intro index _
    simp [coefficient]
  have divisor := setBack_monic zeros
  have first : Division f _ divqr.q divqr.r :=
    divides f _ nonempty (by rw [divisor.degree]; omega)
  have higher : degree (setBack (resize ([] : List K) (place + k + 1)) 1) ≤ degree f := by
    rw [divisor.degree, monic.degree]
    omega
  have degreeQ : degree divqr.q = place := by
    rw [first.degree_quotient higher, divisor.degree, monic.degree]
    omega
  have topQ := first.monic_quotient higher (by rw [monic.degree, monic.top])
    (by rw [divisor.degree, divisor.top])
  rw [degreeQ] at topQ
  have small := first.small
  rw [divisor.degree] at small
  obtain ⟨r2, subtracted, r2Nonempty, shift⟩ :=
    @Chebyshev.subtractPower_shift K _ _ place _ first.nonempty
  have r2Degree := Chebyshev.degree_of_shift shift
  have second : Division r2 divqr.q _ _ := divides r2 divqr.q r2Nonempty (by omega)
  have secondSmall := second.small
  rw [degreeQ] at secondSmall
  have below : ∀ index, place ≤ index →
      coefficient (LongDivisionPoly r2 divqr.q).r index = 0 := fun index above =>
    ChebyshevSeries.coefficient_of_degree_lt (secondSmall.trans_le above)
  refine ⟨r2, subtracted, ?_, ⟨degreeQ, ?_, topQ⟩, setBack_monic below, ?_, second.trimmed⟩
  · have whole := first.sum
    have lowered := PolynomialList.polynomial_shift shift
    have inner := second.sum
    rw [polynomial_setBack zeros] at whole
    rw [C_neg, C_1, neg_one_mul] at lowered
    have remainder : polynomial divqr.r = polynomial r2 + X ^ place := by
      rw [lowered]
      ring
    have empty : polynomial ([] : List K) = 0 := by simp [polynomial]
    rw [whole, remainder, inner, polynomial_setBack below, empty]
    ring
  · rw [first.trimmed, degreeQ]
  · have bound := second.degree_quotient_lt (show degree r2 < degree divqr.q + k by omega)
    omega

theorem accumulatePowers_eq {x : K} {k : Nat} {powers : List (Option K)}
    (holds : HoldsPowers x k (· ≤ k) powers) (weights : List K) (limit : Nat) (positive : 1 ≤ limit)
    (inside : limit ≤ k) (enough : limit < weights.length) :
    accumulatePowers powers weights limit = some (∑ index ∈ Finset.range limit,
      coefficient weights (index + 1) * x ^ (index + 1)) := by
  have term : ∀ index, index < limit → weightedPower powers weights index =
      some (coefficient weights (index + 1) * x ^ (index + 1)) := by
    intro index below
    have power := holds.read (index + 1) (by omega) (by omega)
    rw [Nat.add_sub_cancel] at power
    have weight : weights[index + 1]? = some (coefficient weights (index + 1)) := by
      rw [coefficient, List.getD_eq_getElem?_getD, List.getElem?_eq_getElem (by omega),
        Option.getD_some]
    rw [weightedPower, power, weight, mul_comm]
    rfl
  induction limit using Nat.twoStepInduction with
  | zero => omega
  | one =>
      rw [accumulatePowers, term 0 (by omega), Finset.sum_range_one]
  | more n _ ih =>
      rw [accumulatePowers, ih (by omega) (by omega) (by omega) fun index below =>
        term index (by omega), term (n + 1) (by omega), Finset.sum_range_succ _ (n + 1)]
      rfl

/-- Both techniques add up the same terms. -/
theorem evalPartialLinearWSum_eq {x : K} {k : Nat} {powers : List (Option K)}
    (holds : HoldsPowers x k (· ≤ k) powers) (fixedManual : Bool) (weights : List K)
    (positive : 1 ≤ degree weights) (inside : degree weights ≤ k) :
    evalPartialLinearWSum fixedManual powers weights (degree weights) =
      some ((polynomial weights).eval x - coefficient weights 0) := by
  have limit : (if fixedManual = true then max (degree weights) 1 else degree weights) =
      degree weights := by
    rw [max_eq_left positive, ite_self]
  rw [evalPartialLinearWSum, limit, accumulatePowers_eq holds weights _ positive inside
    (ChebyshevSeries.degree_lt_length (by omega)), PolynomialList.eval_polynomial_degree,
    add_sub_cancel_left]

omit [DecidableEq K] in
theorem head_eq {coefficients : List K} (nonempty : coefficients ≠ []) :
    coefficients.head? = some (coefficient coefficients 0) := by
  cases coefficients with
  | nil => exact absurd rfl nonempty
  | cons front rest => rfl

theorem constant_eq {coefficients : List K} (constant : degree coefficients = 0) (x : K) :
    (polynomial coefficients).eval x = coefficient coefficients 0 := by
  rw [PolynomialList.eval_polynomial_degree, constant, Finset.sum_range_zero, add_zero]

/-- The leading one of a short factor is the last power itself. -/
theorem shortFactor_eq {x : K} {k : Nat} {powers : List (Option K)}
    (holds : HoldsPowers x k (· ≤ k) powers) (positive : 1 ≤ k) (fixedManual : Bool)
    {coefficients : List K} (monic : MonicList k coefficients) :
    shortFactor fixedManual powers k coefficients = some ((polynomial coefficients).eval x) := by
  have last := holds.read k positive le_rfl
  have nonempty : coefficients ≠ [] := by
    apply List.ne_nil_of_length_pos
    rw [monic.length]
    omega
  have resizedNonempty : resize coefficients k ≠ [] := by
    apply List.ne_nil_of_length_pos
    rw [Chebyshev.length_resize]
    omega
  have shift : ∀ index, coefficient coefficients index =
      coefficient (resize coefficients k) index + if index = k then 1 else 0 := by
    intro index
    rw [Chebyshev.coefficient_resize]
    rcases lt_trichotomy index k with less | equal | more
    · rw [if_pos less, if_neg less.ne, add_zero]
    · rw [if_neg equal.not_lt, if_pos equal, equal, monic.top, zero_add]
    · rw [if_neg more.not_gt, if_neg more.ne', add_zero]
      exact ChebyshevSeries.coefficient_of_degree_lt (by rw [monic.degree]; exact more)
  have value : (polynomial coefficients).eval x =
      (polynomial (resize coefficients k)).eval x + x ^ k := by
    rw [PolynomialList.polynomial_shift shift, C_1, one_mul, eval_add, eval_pow, eval_X]
  have front : coefficient coefficients 0 = coefficient (resize coefficients k) 0 := by
    rw [shift, if_neg (by omega), add_zero]
  have small : degree (resize coefficients k) ≤ k := by
    apply ChebyshevSeries.degree_le
    intro index above
    rw [Chebyshev.coefficient_resize, if_neg (by omega)]
  simp only [shortFactor, last, head_eq nonempty, degree_of_ne_nil resizedNonempty,
    Option.bind_eq_bind, Option.bind_some]
  by_cases varied : 0 < degree (resize coefficients k)
  · rw [if_pos varied, evalPartialLinearWSum_eq holds fixedManual _ varied small, Option.bind_some,
      front, value]
    congr 1
    ring
  · rw [if_neg varied, front, value, constant_eq (by omega), add_comm]

/-- The three shapes of the quotient c give one value. -/
theorem polyHead_eq {x : K} {k m : Nat} {powers powers2 : List (Option K)} {doubled : K}
    (holds : HoldsPowers x k (· ≤ k) powers) (positive : 1 ≤ k) (fixedManual : Bool)
    (read : readPower powers2 (m - 1) = some doubled) {c : List K}
    (length : c.length = degree c + 1) (below : degree c < k) :
    polyHead fixedManual powers powers2 m c = some (doubled + (polynomial c).eval x) := by
  have nonempty : c ≠ [] := List.ne_nil_of_length_pos (by omega)
  have first := holds.read 1 le_rfl positive
  rw [pow_one] at first
  rw [polyHead, degree_of_ne_nil nonempty, read, head_eq nonempty]
  simp only [Option.bind_eq_bind, Option.bind_some]
  by_cases constant : degree c = 0
  · rw [if_pos constant, constant_eq constant]
  · rw [if_neg constant]
    by_cases linear : degree c = 1
    · have slope : (c)[1]? = some (coefficient c 1) := by
        rw [coefficient, List.getD_eq_getElem?_getD, List.getElem?_eq_getElem (by omega),
          Option.getD_some]
      have value : (polynomial c).eval x = coefficient c 0 + coefficient c 1 * x := by
        rw [PolynomialList.eval_polynomial_degree, linear, Finset.sum_range_one, zero_add, pow_one]
      rw [if_pos linear, first, slope, value]
      simp only [Option.bind_some]
      by_cases one : coefficient c 1 = 1
      · rw [if_neg (not_not.mpr one), one]
        congr 1
        ring
      · rw [if_pos one]
        congr 1
        ring
    · rw [if_neg linear, evalPartialLinearWSum_eq holds fixedManual c (by omega) below.le,
        Option.bind_some]
      congr 1
      ring

/-- The powers that the recursion reads up to some level. -/
structure RecursionAt (x : K) (k count : Nat) (powers powers2 : List (Option K)) : Prop where
  positive : 1 ≤ k
  powers : HoldsPowers x k (· ≤ k) powers
  powers2 : ∀ index, 1 ≤ index → index ≤ count →
    readPower powers2 index = some (x ^ (k * 2 ^ index))

theorem polyFactor_eq {x : K} {k count place : Nat} {powers powers2 : List (Option K)}
    (holds : RecursionAt x k count powers powers2) (fixedManual : Bool)
    {recurse : List K → Option K} {coefficients : List K} (reaches : k ≤ place)
    (monic : MonicList place coefficients)
    (recursive : k < place → recurse coefficients = some ((polynomial coefficients).eval x)) :
    polyFactor fixedManual recurse powers k coefficients =
      some ((polynomial coefficients).eval x) := by
  have nonempty : coefficients ≠ [] := by
    apply List.ne_nil_of_length_pos
    rw [monic.length]
    omega
  rw [polyFactor, degree_of_ne_nil nonempty, monic.degree]
  simp only [Option.bind_eq_bind, Option.bind_some]
  by_cases higher : k < place
  · rw [if_pos higher]
    exact recursive higher
  · rw [if_neg higher]
    have same : place = k := by omega
    rw [same] at monic
    exact shortFactor_eq holds.powers holds.positive fixedManual monic

/-- The induction follows the recursion: both factors have the degree of the next level. -/
theorem innerEvalPolyPS_eq {LongDivisionPoly : List K → List K → LongDiv K}
    (divides : DividesPolynomial LongDivisionPoly) {x : K} {k count : Nat}
    {powers powers2 : List (Option K)} (holds : RecursionAt x k count powers powers2)
    (fixedManual : Bool) (m : Nat) (positive : 1 ≤ m) (available : m ≤ count) (f : List K)
    (monic : MonicList (2 * (k * 2 ^ m - k) + k) f) :
    innerEvalPolyPS fixedManual LongDivisionPoly powers powers2 k (m + 1) f =
      some ((polynomial f).eval x) := by
  induction m generalizing f with
  | zero => omega
  | succ m ih =>
      have kPositive := holds.positive
      have doubling : k * 2 ^ (m + 1) = 2 * (k * 2 ^ m) := by rw [pow_succ]; ring
      have larger : k ≤ k * 2 ^ m := Nat.le_mul_of_pos_right _ (Nat.two_pow_pos m)
      obtain ⟨place, isPlace⟩ : ∃ place, k * 2 ^ (m + 1) - k = place := ⟨_, rfl⟩
      rw [isPlace] at monic
      have next : place = 2 * (k * 2 ^ m - k) + k := by omega
      obtain ⟨r2, subtracted, split⟩ :=
        exists_split divides (show 0 < k by omega) (show 0 < place by omega) monic
      have deeper : ∀ coefficients : List K, MonicList place coefficients → k < place →
          innerEvalPolyPS fixedManual LongDivisionPoly powers powers2 k (m + 1) coefficients =
            some ((polynomial coefficients).eval x) := by
        intro coefficients factor higher
        have notLast : 1 ≤ m := by
          by_contra last
          rw [show m = 0 by omega, pow_zero, mul_one] at next
          omega
        rw [next] at factor
        exact ih notLast (by omega) coefficients factor
      have power := holds.powers2 (m + 1) (by omega) available
      have qu := polyFactor_eq holds fixedManual (show k ≤ place by omega) split.monicQ
        (deeper _ split.monicQ)
      have su := polyFactor_eq holds fixedManual (show k ≤ place by omega) split.monicS
        (deeper _ split.monicS)
      have cu := @polyHead_eq K _ _ x k (m + 2) powers powers2 _ holds.powers kPositive fixedManual
        power _ split.lengthC split.degreeC
      have value := congrArg (eval x) split.sum
      simp only [eval_add, eval_mul, eval_pow, eval_X] at value
      have index : k * 2 ^ (m + 1) = place + k := by omega
      rw [index] at cu
      rw [innerEvalPolyPS]
      simp only [isPlace, Option.bind_eq_bind, Option.bind_some, subtracted, qu, su, cu, value]

end

end Fideslib.PowerBasis
