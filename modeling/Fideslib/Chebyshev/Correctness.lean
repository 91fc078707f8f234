/-
This file proves that the evaluation of a Chebyshev series returns its value at the argument.
-/

import Fideslib.Chebyshev.Traversal

namespace Fideslib.Chebyshev

open Polynomial
open Polynomial.Chebyshev (T)
open ChebyshevSeries (coefficient series)
open scoped ChebyshevSeries

section

variable {K : Type} [Field K] [DecidableEq K]

theorem coefficient_rdropWhile (weights : List K) (index : Nat) :
    coefficient (weights.rdropWhile (· = 0)) index = coefficient weights index := by
  induction weights using List.reverseRecOn with
  | nil => rfl
  | append_singleton front last ih =>
      by_cases zero : last = 0
      · rw [List.rdropWhile_concat_pos _ _ _ (by simpa using zero), ih, zero]
        rcases lt_or_ge index front.length with inside | past
        · rw [coefficient, coefficient, List.getD_append _ _ _ _ inside]
        · rw [ChebyshevSeries.coefficient_of_length_le past, coefficient,
            List.getD_append_right _ _ _ _ past]
          cases index - front.length <;> rfl
      · rw [List.rdropWhile_concat_neg _ _ _ (by simpa using zero)]

/-- Removing trailing zeros does not change an output of the batch. -/
theorem batchedSum_result {ctxs : List K} {node : TerminalSum K} (nonempty : ctxs ≠ [])
    (batchable : node.Batchable ctxs) :
    batchedSum ctxs node.constants node.target_level = some (node.result ctxs) := by
  obtain ⟨⟨constant, member, nonzero⟩, enough⟩ := batchable
  have same := coefficient_rdropWhile node.constants
  have shorter := (List.rdropWhile_prefix (fun weight : K => decide (weight = 0))
    node.constants).length_le
  rw [batchedSum]
  cases trimmed : node.constants.rdropWhile (fun weight => decide (weight = 0)) with
  | nil =>
      have zeros := List.rdropWhile_eq_nil_iff.mp trimmed constant member
      simp [nonzero] at zeros
  | cons bias terms =>
      rw [trimmed] at same shorter
      rw [List.length_cons] at shorter
      have bound : terms.length ≤ ctxs.length ∧ ctxs ≠ [] := ⟨by omega, nonempty⟩
      simp only [if_pos bound]
      have sums : weightedSum ctxs (bias :: terms) terms.length =
          weightedSum ctxs node.constants (node.constants.length - 1) := by
        calc weightedSum ctxs (bias :: terms) terms.length
            = weightedSum ctxs (bias :: terms) (node.constants.length - 1) := by
              apply Finset.sum_subset (Finset.range_mono (by omega))
              intro index _ outside
              have past : coefficient (bias :: terms) (index + 1) = 0 := by
                apply ChebyshevSeries.coefficient_of_length_le
                simpa using outside
              rw [coefficient] at past
              rw [past, if_neg (not_not.mpr rfl)]
          _ = weightedSum ctxs node.constants (node.constants.length - 1) := by
              apply Finset.sum_congr rfl
              intro index _
              have equal := same (index + 1)
              rw [coefficient, coefficient] at equal
              rw [equal]
      have front := same 0
      rw [TerminalSum.result, ← sums]
      congr 2
      rw [← coefficient, ← front]
      rfl

theorem evalMultiplePartialLinearWSumWithBias_result {ctxs : List K} (nonempty : ctxs ≠ [])
    (nodes : List (TerminalSum K)) (batchable : ∀ node ∈ nodes, node.Batchable ctxs) :
    evalMultiplePartialLinearWSumWithBias ctxs (nodes.map TerminalSum.constants)
      (nodes.map TerminalSum.target_level) = some (nodes.map (TerminalSum.result ctxs)) := by
  rw [evalMultiplePartialLinearWSumWithBias, if_pos (by simp)]
  induction nodes with
  | nil => rfl
  | cons node rest ih =>
      have first := batchedSum_result nonempty (batchable node List.mem_cons_self)
      have others := ih fun other member => batchable other (List.mem_cons_of_mem _ member)
      simp only [List.map_cons, List.zip_cons_cons, List.mapM_cons, first, others]
      rfl

/-- The precomputation succeeds and its arguments are the basis at the argument. -/
theorem seriesArguments_basis {LongDivisionChebyshev : List K → List K → LongDiv K}
    (divides : DividesSeries LongDivisionChebyshev) (levels : PSLevels) {k m : Nat} (y : K)
    (kPositive : 1 ≤ k) (mLarge : 2 ≤ m) :
    ∃ args, seriesArguments LongDivisionChebyshev levels k m y =
        some (args, (T K (k * (2 ^ m - 1) : Nat)).eval y) ∧
      args.k = k ∧ ArgumentsAt args y (m - 1) := by
  obtain ⟨powers, built, basis⟩ := chebyshevPowers_basis y k kPositive
  obtain ⟨doubled, repeated, holds⟩ := doubledPowers_doubled basis kPositive (m - 1)
  have product := holds.T2km1
  rw [Nat.sub_add_cancel (show 1 ≤ m by omega)] at product
  rw [seriesArguments, built]
  simp only [Option.bind_eq_bind, Option.bind_some, repeated, product]
  exact ⟨_, rfl, rfl, kPositive, divides, basis, holds.T2, holds.T2_norescale⟩

/-- Both evaluations of a raised series visit the same nodes, and the replay empties the stack. -/
structure SamePhases (args : PSArguments K) (m : Nat) (f2 : List K) (x value : K)
    (nodes : List (TerminalSum K)) : Prop where
  full : sequentialPS args m f2 x = some (value, { emptyRun K with visited := nodes })
  recorded : recordPS args m f2 x = some
    { record :=
        { constants := nodes.map TerminalSum.constants
          target_level := nodes.map TerminalSum.target_level
          rev_result_ciphertexts := [] }
      visited := nodes }
  batch : evalMultiplePartialLinearWSumWithBias args.T (nodes.map TerminalSum.constants)
    (nodes.map TerminalSum.target_level) = some (nodes.map (TerminalSum.result args.T))
  replayed : ∀ record : PSRecordFused K,
    replayPS args m f2 x record (nodes.map (TerminalSum.result args.T)) = some
      (value, { record := { record with rev_result_ciphertexts := [] }, visited := nodes })

theorem exists_samePhases [NeZero (2 : K)] {args : PSArguments K} {y : K} {m : Nat}
    (holds : ArgumentsAt args y (m - 1)) (mLarge : 2 ≤ m) (f2 : List K) (x : K)
    (degree : ChebyshevSeries.degree f2 = 2 * (args.k * 2 ^ (m - 1) - args.k) + args.k) :
    ∃ nodes, SamePhases args m f2 x ((series f2).eval y) nodes := by
  obtain ⟨nodes, visits⟩ := innerEvalChebyshevPS_visits holds (m - 1) (by omega) le_rfl f2 0 degree
  have called := visits x
  rw [Nat.sub_add_cancel (show 1 ≤ m by omega)] at called
  have available : args.T ≠ [] := by
    apply List.ne_nil_of_length_pos
    rw [holds.basis.length]
    exact holds.positive
  use nodes
  constructor
  · rw [sequentialPS, called.full]
    rfl
  · obtain ⟨unwritten, recorded⟩ := called.record (emptyRun K)
    rw [recordPS, recorded]
    rfl
  · exact evalMultiplePartialLinearWSumWithBias_result available nodes called.batchable
  · intro record
    rw [replayPS, called.remaining _ [] (by rw [PSRun.Stacked, List.append_nil])]
    rfl

theorem SamePhases.batched {args : PSArguments K} {m : Nat} {f2 : List K} {x value : K}
    {nodes : List (TerminalSum K)} (phases : SamePhases args m f2 x value nodes) :
    ∃ run, batchedPS args m f2 x = some (value, run) := by
  simp only [batchedPS, phases.recorded, Option.bind_eq_bind, Option.bind_some, phases.batch,
    phases.replayed]
  exact ⟨_, rfl⟩

/-- The series at the scaled argument counts half of the first coefficient. -/
noncomputable def seriesValue (coefficients : List K) (lower_bound upper_bound x : K) : K :=
  coefficients.getD 0 0 / 2 + ∑ index ∈ Finset.Ico 1 coefficients.length,
    coefficients.getD index 0 *
      (T K index).eval (-1 + 2 * (x - lower_bound) / (upper_bound - lower_bound))

theorem seriesValue_eq_eval [NeZero (2 : K)] (coefficients : List K) (a b x : K) :
    seriesValue coefficients a b x = (series coefficients).eval (chebyshevArgument x a b) := by
  rw [ChebyshevSeries.eval_series, chebyshevArgument_eq]
  rfl

/-- The short path adds up the terms one by one. -/
theorem evalChebyshevSeriesLinear_value [NeZero (2 : K)] (coefficients : List K)
    (enough : 2 ≤ coefficients.length) (a b x : K) :
    evalChebyshevSeriesLinear coefficients a b x = some (seriesValue coefficients a b x) := by
  match coefficients, enough with
  | front :: first :: rest, _ =>
      let weights := first :: rest
      obtain ⟨powers, built, basis⟩ :=
        chebyshevPowers_basis (chebyshevArgument x a b) weights.length (by simp [weights])
      have inside : rest.length < weights.length := by simp [weights]
      have last := basis.get inside
      have weight : weights[rest.length]? = some (weights.getD rest.length 0) := by
        rw [List.getD_eq_getElem?_getD, List.getElem?_eq_getElem inside, Option.getD_some]
      have sums : ∀ (count : Nat) (start : K), count ≤ rest.length →
          (List.range count).foldl (fun result index =>
            if weights.getD index 0 ≠ 0 then
              result + powers.getD index 0 * weights.getD index 0
            else
              result) start =
          start + ∑ index ∈ Finset.range count, weights.getD index 0 *
            (T K (index + 1 : Nat)).eval (chebyshevArgument x a b) := by
        intro count start bound
        induction count with
        | zero => simp
        | succ count ih =>
            rw [List.range_succ, List.foldl_append, ih (by omega), Finset.sum_range_succ,
              List.foldl_cons, List.foldl_nil, basis.getD (show count < weights.length by omega)]
            by_cases zero : weights.getD count 0 = 0
            · rw [if_neg (not_not.mpr zero), zero, zero_mul, add_zero]
            · rw [if_pos zero]
              ring
      rw [evalChebyshevSeriesLinear, linearArgument_eq]
      simp only [Option.bind_eq_bind]
      rw [built, Option.bind_some, last, Option.bind_some, weight, Option.bind_some,
        sums rest.length _ le_rfl, seriesValue, ← chebyshevArgument_eq]
      congr 1
      have shift : (front :: first :: rest).length = rest.length + 1 + 1 := rfl
      rw [shift, Finset.sum_Ico_eq_sum_range, Nat.add_sub_cancel, Finset.sum_range_succ]
      have terms : ∀ index, (front :: first :: rest).getD (1 + index) 0 = weights.getD index 0 := by
        intro index
        rw [add_comm]
        rfl
      have total : ∑ index ∈ Finset.range rest.length, (front :: first :: rest).getD (1 + index) 0 *
          (T K (1 + index : Nat)).eval (chebyshevArgument x a b) =
          ∑ index ∈ Finset.range rest.length, weights.getD index 0 *
            (T K (index + 1 : Nat)).eval (chebyshevArgument x a b) := by
        apply Finset.sum_congr rfl
        intro index _
        rw [terms, add_comm 1 index]
      rw [total, terms, add_comm 1 rest.length]
      change _ + front / 2 = front / 2 + _
      ring

/-- The recursion, the batched replay of its terminal sums and the short path return the series. A
single coefficient makes the short path read past its powers. -/
theorem evalChebyshevSeries_value [NeZero (2 : K)]
    (LongDivisionChebyshev : List K → List K → LongDiv K)
    (divides : DividesSeries LongDivisionChebyshev) (levels : PSLevels) (k m : Nat)
    (kPositive : 1 ≤ k) (mLarge : 2 ≤ m) (coefficients : List K) (nonempty : coefficients ≠ [])
    (below : ChebyshevSeries.degree coefficients < k * (2 ^ m - 1)) (a b x : K) :
    (∀ SEQUENTIAL_PS, evalChebyshevSeriesPS SEQUENTIAL_PS LongDivisionChebyshev levels k m
        coefficients a b x = some (seriesValue coefficients a b x)) ∧
      (∀ ComputeDegreesPS : Nat → Nat × Nat, 5 ≤ ChebyshevSeries.degree coefficients →
        ComputeDegreesPS (ChebyshevSeries.degree coefficients) = (k, m) →
        evalChebyshevSeries LongDivisionChebyshev ComputeDegreesPS levels coefficients a b x =
          some (seriesValue coefficients a b x)) ∧
      (∀ ComputeDegreesPS : Nat → Nat × Nat, ChebyshevSeries.degree coefficients < 5 →
        evalChebyshevSeries LongDivisionChebyshev ComputeDegreesPS levels coefficients a b x =
          if 2 ≤ coefficients.length then some (seriesValue coefficients a b x) else none) ∧
      ∃ args T2km1 f2 value nodes,
        seriesArguments LongDivisionChebyshev levels k m (chebyshevArgument x a b) =
            some (args, T2km1) ∧
          raisedCoefficients k m coefficients = some f2 ∧
          value - T2km1 = seriesValue coefficients a b x ∧
          SamePhases args m f2 x value nodes := by
  have doubling : k * 2 ^ m = 2 * (k * 2 ^ (m - 1)) := by
    rw [← Nat.sub_add_cancel (show 1 ≤ m by omega), pow_succ, Nat.add_sub_cancel]
    ring
  have larger : k ≤ k * 2 ^ (m - 1) := Nat.le_mul_of_pos_right _ (Nat.two_pow_pos _)
  have top : k * (2 ^ m - 1) = 2 * (k * 2 ^ (m - 1) - k) + k := by
    rw [Nat.mul_sub, mul_one, doubling]
    omega
  obtain ⟨args, built, sameK, holds⟩ := seriesArguments_basis divides levels
    (chebyshevArgument x a b) kPositive mLarge
  obtain ⟨f2, extended, raised⟩ := @raisedCoefficients_raised K _ _ coefficients k m nonempty
    (by omega)
  obtain ⟨nodes, phases⟩ := exists_samePhases holds mLarge f2 x (by rw [raised.degree, sameK])
  have value : (series f2).eval (chebyshevArgument x a b) -
      (T K (k * (2 ^ m - 1) : Nat)).eval (chebyshevArgument x a b) =
        seriesValue coefficients a b x := by
    rw [raised.series, eval_add, ← top, add_sub_cancel_right, seriesValue_eq_eval]
  have returned : ∀ SEQUENTIAL_PS, evalChebyshevSeriesPS SEQUENTIAL_PS LongDivisionChebyshev levels
      k m coefficients a b x = some (seriesValue coefficients a b x) := by
    intro SEQUENTIAL_PS
    obtain ⟨run, batched⟩ := phases.batched
    simp only [evalChebyshevSeriesPS, built, extended, Option.bind_eq_bind, Option.bind_some]
    cases SEQUENTIAL_PS with
    | false =>
        rw [if_neg Bool.false_ne_true, batched]
        exact congrArg some value
    | true =>
        rw [if_pos rfl, phases.full]
        exact congrArg some value
  refine ⟨returned, ?_, ?_, args, _, f2, _, nodes, built, extended, value, phases⟩
  · intro ComputeDegreesPS long degrees
    rw [evalChebyshevSeries, degree_of_ne_nil nonempty]
    simp only [Option.bind_eq_bind, Option.bind_some]
    rw [if_neg (by omega), degrees]
    exact returned false
  · intro ComputeDegreesPS short
    rw [evalChebyshevSeries, degree_of_ne_nil nonempty]
    simp only [Option.bind_eq_bind, Option.bind_some]
    rw [if_pos short]
    by_cases enough : 2 ≤ coefficients.length
    · rw [if_pos enough, evalChebyshevSeriesLinear_value coefficients enough]
    · rw [if_neg enough]
      obtain ⟨front, rfl⟩ := List.length_eq_one_iff.mp (show coefficients.length = 1 by
        have positive := List.length_pos_iff.mpr nonempty
        omega)
      rfl

/-- This division goes through the polynomials that the coefficients denote. -/
noncomputable def polynomialDivision [NeZero (2 : K)] (dividend divisor : List K) : LongDiv K :=
  if positive : 0 < ChebyshevSeries.degree divisor then
    let quotient := (ChebyshevSeries.exists_division dividend divisor positive).choose
    let remainder := (ChebyshevSeries.exists_division dividend divisor positive).choose_spec.choose
    { q := quotient, r := remainder }
  else
    { q := [], r := dividend }

theorem polynomialDivision_divides [NeZero (2 : K)] :
    DividesSeries (@polynomialDivision K _ _ _) := by
  intro dividend divisor _ positive
  rw [polynomialDivision, dif_pos positive]
  exact (ChebyshevSeries.exists_division dividend divisor positive).choose_spec.choose_spec

/-- The doubled powers are one level below their form before the rescale. -/
def sampleLevels : PSLevels where
  T2_level := fun _ => 5
  T2_NoiseLevel := fun _ => 1
  T2_norescale_level := fun _ => 6

theorem evalChebyshevSeries_value_degreeFive :
    evalChebyshevSeries (@polynomialDivision ℚ _ _ _) (fun _ => (2, 2)) sampleLevels
      [1, 2, 3, 4, 5, 6] (-1) 1 (1 / 2) =
        some (seriesValue [1, 2, 3, 4, 5, 6] (-1) 1 (1 / 2)) := by
  have degree : ChebyshevSeries.degree [(1 : ℚ), 2, 3, 4, 5, 6] = 5 := by decide +kernel
  have holds := evalChebyshevSeries_value (@polynomialDivision ℚ _ _ _) polynomialDivision_divides
    sampleLevels 2 2 (by decide) (by decide) [1, 2, 3, 4, 5, 6] (by decide)
    (by rw [degree]; decide) (-1) 1 (1 / 2)
  exact holds.2.1 (fun _ => (2, 2)) (by rw [degree]) rfl

end

end Fideslib.Chebyshev
