/-
This file proves that both evaluations of a polynomial return its value at the input.
-/

import Fideslib.PowerBasis.Fused

namespace Fideslib.PowerBasis

open Fideslib.Chebyshev (LongDiv PSLevels PSRun TerminalSum emptyRun
  evalMultiplePartialLinearWSumWithBias raisedCoefficients)
open ChebyshevSeries (coefficient degree)
open Polynomial
open PolynomialList (polynomial)

section

variable {K : Type} [Field K] [DecidableEq K]

def polynomialValue (coefficients : List K) (x : K) : K :=
  ∑ index ∈ Finset.range coefficients.length, coefficients.getD index 0 * x ^ index

omit [DecidableEq K] in
theorem polynomialValue_eq_eval (coefficients : List K) (x : K) :
    polynomialValue coefficients x = (polynomial coefficients).eval x := by
  rw [polynomial, eval_finsetSum]
  simp only [eval_mul, eval_C, eval_pow, eval_X]
  rfl

/-- The monomial of index k(2^m - 1) is added to the polynomial that the recursion evaluates. -/
theorem raisedCoefficients_monic {coefficients : List K} {k m : Nat} (nonempty : coefficients ≠ [])
    (below : degree coefficients < 2 * (k * 2 ^ (m - 1) - k) + k) :
    ∃ f2, raisedCoefficients k m coefficients = some f2 ∧
      MonicList (2 * (k * 2 ^ (m - 1) - k) + k) f2 ∧
        polynomial f2 = polynomial coefficients + X ^ (2 * (k * 2 ^ (m - 1) - k) + k) := by
  obtain ⟨trimmed, same, result⟩ := Chebyshev.raisedCoefficients_eq nonempty k m
  have zeros : ∀ index, 2 * (k * 2 ^ (m - 1) - k) + k ≤ index →
      coefficient trimmed index = 0 := by
    intro index above
    rw [same]
    exact ChebyshevSeries.coefficient_of_degree_lt (below.trans_le above)
  refine ⟨_, result, setBack_monic zeros, ?_⟩
  rw [polynomial_setBack zeros, PolynomialList.polynomial_congr same]

theorem top_index {k m : Nat} (mLarge : 2 ≤ m) :
    k * (2 ^ m - 1) = 2 * (k * 2 ^ (m - 1) - k) + k := by
  have doubling : k * 2 ^ m = 2 * (k * 2 ^ (m - 1)) := by
    rw [← Nat.sub_add_cancel (show 1 ≤ m by omega), pow_succ, Nat.add_sub_cancel]
    ring
  have larger : k ≤ k * 2 ^ (m - 1) := Nat.le_mul_of_pos_right _ (Nat.two_pow_pos _)
  rw [Nat.mul_sub, mul_one, doubling]
  omega

/-- The two phases of the fused form return the value of the raised polynomial. -/
theorem fusedPhases_eq {args : FusedArguments K} {x : K} {m : Nat}
    (holds : FusedAt args x (m - 1)) (mLarge : 2 ≤ m) {f2 : List K}
    (monic : MonicList (2 * (args.k * 2 ^ (m - 1) - args.k) + args.k) f2) :
    ∃ out recorded ws after,
      innerEvalPolyPSFused args .RECORD m f2 0 0 (emptyRun K) = some (out, recorded) ∧
        evalMultiplePartialLinearWSumWithBias args.powers recorded.record.constants
          recorded.record.target_level = some ws ∧
        innerEvalPolyPSFused args .REMAINING m f2 0 out
          { record := { recorded.record with rev_result_ciphertexts := ws.reverse }
            visited := [] } = some ((polynomial f2).eval x, after) ∧
        after.record.rev_result_ciphertexts = [] ∧ after.visited = recorded.visited := by
  obtain ⟨nodes, visits⟩ :=
    innerEvalPolyPSFused_visits holds (m - 1) (by omega) le_rfl f2 0 monic
  rw [Nat.sub_add_cancel (show 1 ≤ m by omega)] at visits
  have available : args.powers ≠ [] := by
    apply List.ne_nil_of_length_pos
    rw [holds.powers.length]
    exact holds.positive
  obtain ⟨out, recorded⟩ := (visits 0).record (emptyRun K)
  have batch := Chebyshev.evalMultiplePartialLinearWSumWithBias_result available nodes
    (visits out).batchable
  have replayed := (visits out).remaining
    { record :=
        { ((emptyRun K).push nodes).record with
          rev_result_ciphertexts := (nodes.map (TerminalSum.result args.powers)).reverse }
      visited := [] } [] (by rw [PSRun.Stacked, List.append_nil])
  exact ⟨out, _, _, _, recorded, batch, replayed, rfl, rfl⟩

/-- The fused form reads every power and returns the polynomial. -/
theorem evalPolyPSWithPrecompFused_eq {LongDivisionPoly : List K → List K → LongDiv K}
    (divides : DividesPolynomial LongDivisionPoly) (levels : PSLevels) {k m : Nat}
    (kPositive : 1 ≤ k) (mLarge : 2 ≤ m) {x : K} {sp : SeriesPowers K}
    (holds : PowersAt true x k m sp) {coefficients : List K} (nonempty : coefficients ≠ [])
    (below : degree coefficients < k * (2 ^ m - 1)) :
    evalPolyPSWithPrecompFused LongDivisionPoly levels sp coefficients =
      some (polynomialValue coefficients x) := by
  rw [top_index mLarge] at below
  obtain ⟨sameK, sameM⟩ := holds.sizes
  obtain ⟨powers, read, all⟩ := holds.powers.mapM
  obtain ⟨f2, extended, monic, raised⟩ := raisedCoefficients_monic nonempty below
  have started : FusedAt
      { LongDivisionPoly := LongDivisionPoly
        k := k
        powers := powers
        powers2 := sp.powers2
        powers2_norescale := sp.powers2_norescale
        levels := levels } x (m - 1) :=
    ⟨kPositive, divides, all, fun index positive inside =>
      holds.powers2 index positive (by omega), fun index positive inside =>
      holds.norescale rfl index positive (by omega)⟩
  obtain ⟨out, recorded, ws, after, record, batch, replay, _⟩ :=
    fusedPhases_eq started mLarge monic
  rw [evalPolyPSWithPrecompFused, fusedArguments, read, sameK, sameM]
  simp only [extended, Option.bind_eq_bind, Option.bind_some, record, batch, replay,
    holds.power2km1]
  rw [top_index mLarge, raised, eval_add, eval_pow, eval_X, add_sub_cancel_right,
    polynomialValue_eq_eval]

theorem evalPolyPSWithPrecomp_eq {LongDivisionPoly : List K → List K → LongDiv K}
    (divides : DividesPolynomial LongDivisionPoly) (fixedManual fused : Bool) {k m : Nat}
    (kPositive : 1 ≤ k) (mLarge : 2 ≤ m) {x : K} {sp : SeriesPowers K}
    (holds : PowersAt fused x k m sp) {coefficients : List K} (nonempty : coefficients ≠ [])
    (below : degree coefficients < k * (2 ^ m - 1)) :
    evalPolyPSWithPrecomp fixedManual LongDivisionPoly sp coefficients =
      some (polynomialValue coefficients x) := by
  rw [top_index mLarge] at below
  obtain ⟨sameK, sameM⟩ := holds.sizes
  obtain ⟨f2, extended, monic, raised⟩ := raisedCoefficients_monic nonempty below
  have started : RecursionAt x k (m - 1) sp.powers sp.powers2 :=
    ⟨kPositive, holds.powers, fun index positive inside =>
      holds.powers2 index positive (by omega)⟩
  have value := innerEvalPolyPS_eq divides started fixedManual (m - 1) (by omega) le_rfl f2 monic
  rw [Nat.sub_add_cancel (show 1 ≤ m by omega)] at value
  rw [evalPolyPSWithPrecomp, sameK, sameM]
  simp only [extended, Option.bind_eq_bind, Option.bind_some, value, holds.power2km1]
  rw [top_index mLarge, raised, eval_add, eval_pow, eval_X, add_sub_cancel_right,
    polynomialValue_eq_eval]

/-- The short path adds up the terms with a nonzero coefficient. -/
theorem evalPolyLinearWithPrecomp_eq {coefficients : List K} {x : K} {powers : List (Option K)}
    (enough : 2 ≤ coefficients.length)
    (top : coefficients.getD (coefficients.length - 1) 0 ≠ 0)
    (read : ∀ index, 1 ≤ index → coefficient coefficients index ≠ 0 →
      readPower powers (index - 1) = some (x ^ index)) :
    evalPolyLinearWithPrecomp powers coefficients = some (polynomialValue coefficients x) := by
  have get : coefficients[coefficients.length - 1]? =
      some (coefficients.getD (coefficients.length - 1) 0) := by
    rw [List.getD_eq_getElem?_getD, List.getElem?_eq_getElem (by omega), Option.getD_some]
  have last := read (coefficients.length - 1) (by omega) top
  have sums : ∀ (count : Nat) (start : K),
      (List.range count).foldlM (fun result index =>
        if coefficients.getD (index + 1) 0 ≠ 0 then do
          let power ← readPower powers index
          some (result + power * coefficients.getD (index + 1) 0)
        else
          some result) start =
        some (start + ∑ index ∈ Finset.range count,
          coefficients.getD (index + 1) 0 * x ^ (index + 1)) := by
    intro count start
    induction count with
    | zero => simp
    | succ count ih =>
        rw [List.range_succ, List.foldlM_append, ih, Finset.sum_range_succ]
        simp only [Option.bind_eq_bind, Option.bind_some, List.foldlM_cons, List.foldlM_nil]
        by_cases zero : coefficients.getD (count + 1) 0 = 0
        · rw [if_neg (not_not.mpr zero), zero, zero_mul, add_zero]
          rfl
        · have power := read (count + 1) (by omega) zero
          rw [Nat.add_sub_cancel] at power
          rw [if_pos zero, power]
          simp only [Option.bind_some]
          rw [mul_comm (x ^ (count + 1)), add_assoc]
          rfl
  rw [evalPolyLinearWithPrecomp]
  simp only [get, Option.bind_eq_bind, Option.bind_some]
  rw [if_neg (by rw [not_or]; exact ⟨by omega, top⟩), last]
  simp only [Option.bind_some, Option.bind_eq_bind] at sums ⊢
  rw [sums, Option.bind_some, polynomialValue]
  obtain ⟨rest, length⟩ : ∃ rest, coefficients.length = rest + 1 + 1 :=
    ⟨coefficients.length - 2, by omega⟩
  rw [length, Nat.add_sub_cancel, Nat.add_sub_cancel, Finset.sum_range_succ',
    Finset.sum_range_succ, pow_zero, mul_one]
  congr 1
  ring

/-- The short path throws without a second coefficient and with a zero at the end. -/
theorem evalPolyLinearWithPrecomp_throws {coefficients : List K} (powers : List (Option K))
    (refused : ¬(2 ≤ coefficients.length ∧
      coefficients.getD (coefficients.length - 1) 0 ≠ 0)) :
    evalPolyLinearWithPrecomp powers coefficients = none := by
  rw [evalPolyLinearWithPrecomp]
  cases get : coefficients[coefficients.length - 1]? with
  | none => rfl
  | some last =>
      have same : coefficients.getD (coefficients.length - 1) 0 = last := by
        rw [List.getD_eq_getElem?_getD, get, Option.getD_some]
      have bad : coefficients.length < 2 ∨ last = 0 := by
        rw [same] at refused
        by_contra good
        rw [not_or, not_lt] at good
        exact refused good
      simp only [Option.bind_eq_bind, Option.bind_some]
      rw [if_pos bad]

section Contract

variable (LongDivisionPoly : List K → List K → LongDiv K) (levels : PSLevels)
  (ComputeDegreesPS : Nat → Nat × Nat) (d k m : Nat) (coefficients : List K)
  (fixedManual fused : Bool) (x : K)

/-- The evaluator has its powers from this index of the second list on, and both of its forms
return the polynomial. -/
def PSEvaluatesFrom (first : Nat) : Prop :=
  ∃ sp, evalPowersPS ComputeDegreesPS x d fused = some sp ∧
    (∀ index, 1 ≤ index → index ≤ k → readPower sp.powers (index - 1) = some (x ^ index)) ∧
    (∀ index, first ≤ index → index < m →
      readPower sp.powers2 index = some (x ^ (k * 2 ^ index))) ∧
    sp.power2km1 = some (x ^ (k * (2 ^ m - 1))) ∧
    evalPolyPSWithPrecomp fixedManual LongDivisionPoly sp coefficients =
      some (polynomialValue coefficients x) ∧
    (fused = true → evalPolyPSWithPrecompFused LongDivisionPoly levels sp coefficients =
      some (polynomialValue coefficients x))

/-- The short path has the powers of its nonzero coefficients and returns the polynomial. -/
def LinearEvaluates : Prop :=
  ∃ sp, evalPowersLinear coefficients x = some sp ∧
    (∀ index, 1 ≤ index → coefficients.getD index 0 ≠ 0 →
      readPower sp.powers (index - 1) = some (x ^ index)) ∧
    evalPolyLinearWithPrecomp sp.powers coefficients = some (polynomialValue coefficients x)

end Contract

/-- The first entry of the second list is never filled, which is all that the longer path lacks,
and the short path keeps its promise exactly on the vectors that it accepts. -/
theorem evalPoly_contract_iff (LongDivisionPoly : List K → List K → LongDiv K)
    (divides : DividesPolynomial LongDivisionPoly) (levels : PSLevels)
    (ComputeDegreesPS : Nat → Nat × Nat) (d k m : Nat) (degrees : ComputeDegreesPS d = (k, m))
    (coefficients : List K) (nonempty : coefficients ≠ [])
    (below : degree coefficients < k * (2 ^ m - 1)) (fixedManual fused : Bool) (x : K) :
    ¬PSEvaluatesFrom LongDivisionPoly levels ComputeDegreesPS d k m coefficients fixedManual fused
        x 0 ∧
    (2 ≤ m → PSEvaluatesFrom LongDivisionPoly levels ComputeDegreesPS d k m coefficients
      fixedManual fused x 1) ∧
    (LinearEvaluates coefficients x ↔ 2 ≤ coefficients.length ∧
      coefficients.getD (coefficients.length - 1) 0 ≠ 0) ∧
    (2 ≤ coefficients.length → ∃ sp, evalPowersLinear coefficients x = some sp ∧
      ∀ index, 1 ≤ index → coefficients.getD index 0 ≠ 0 →
        readPower sp.powers (index - 1) = some (x ^ index)) := by
  have room : k * (2 ^ m - 1) ≠ 0 := by omega
  have kPositive : 1 ≤ k := Nat.pos_of_ne_zero (left_ne_zero_of_mul room)
  have mPositive : 1 ≤ m := by
    apply Nat.pos_of_ne_zero
    rintro rfl
    exact right_ne_zero_of_mul room rfl
  obtain ⟨sp, built, holds⟩ := evalPowersPS_spec degrees kPositive mPositive x fused
  refine ⟨?_, fun mLarge => ⟨sp, built, holds.powers.read, holds.powers2, holds.power2km1, ?_, ?_⟩,
    ⟨?_, ?_⟩, fun enough => evalPowersLinear_spec coefficients x enough⟩
  · rintro ⟨other, again, -, read, -⟩
    cases built.symm.trans again
    have empty := read 0 le_rfl mPositive
    rw [holds.empty] at empty
    cases empty
  · exact evalPolyPSWithPrecomp_eq divides fixedManual fused kPositive mLarge holds nonempty below
  · intro isFused
    rw [isFused] at holds
    exact evalPolyPSWithPrecompFused_eq divides levels kPositive mLarge holds nonempty below
  · rintro ⟨linear, -, -, value⟩
    by_contra refused
    rw [evalPolyLinearWithPrecomp_throws linear.powers refused] at value
    cases value
  · rintro ⟨enough, top⟩
    obtain ⟨linear, made, read⟩ := evalPowersLinear_spec coefficients x enough
    exact ⟨linear, made, read, evalPolyLinearWithPrecomp_eq enough top read⟩

/-- This division goes through the polynomials that the coefficients denote. -/
noncomputable def polynomialDivision (dividend divisor : List K) : LongDiv K :=
  if positive : 0 < degree divisor then
    let quotient := (PolynomialList.exists_division dividend divisor positive).choose
    let remainder := (PolynomialList.exists_division dividend divisor positive).choose_spec.choose
    { q := quotient, r := remainder }
  else
    { q := [], r := dividend }

theorem polynomialDivision_divides : DividesPolynomial (@polynomialDivision K _ _) := by
  intro dividend divisor _ positive
  rw [polynomialDivision, dif_pos positive]
  exact (PolynomialList.exists_division dividend divisor positive).choose_spec.choose_spec

end

/-- At degree five the powers are right from the second entry on. -/
theorem evalPoly_contract_degreeFive :
    PSEvaluatesFrom polynomialDivision Chebyshev.sampleLevels (fun _ => (2, 2)) 5 2 2
      [1, 2, 3, 4, 5, 6] true true (3 : ℚ) 1 ∧ LinearEvaluates [1, 2, 3, 4, 5, 6] (3 : ℚ) := by
  have degreeFive : degree [(1 : ℚ), 2, 3, 4, 5, 6] = 5 := by decide +kernel
  obtain ⟨-, value, linear, -⟩ := @evalPoly_contract_iff ℚ _ _ polynomialDivision
    polynomialDivision_divides Chebyshev.sampleLevels (fun _ => (2, 2)) 5 2 2 rfl
    [1, 2, 3, 4, 5, 6] (by decide) (by rw [degreeFive]; decide) true true 3
  exact ⟨value le_rfl, linear.mpr ⟨by decide, by decide +kernel⟩⟩

/-- At degree five the first entry of the second list is empty. -/
theorem powers2_empty_degreeFive :
    degree [(1 : ℚ), 2, 3, 4, 5, 6] < 2 * (2 ^ 2 - 1) ∧
      ¬PSEvaluatesFrom polynomialDivision Chebyshev.sampleLevels (fun _ => (2, 2)) 5 2 2
        [1, 2, 3, 4, 5, 6] true true (3 : ℚ) 0 := by
  refine ⟨by decide +kernel, ?_⟩
  rintro ⟨sp, built, -, read, -⟩
  obtain ⟨other, again, holds⟩ := @evalPowersPS_spec ℚ _ _ (fun _ => (2, 2)) 5 2 2 rfl (by decide)
    (by decide) 3 true
  cases built.symm.trans again
  have empty := read 0 le_rfl (by decide)
  rw [holds.empty] at empty
  cases empty

end Fideslib.PowerBasis
