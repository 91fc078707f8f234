/-
This file proves that the fused recursion reaches the same sums in all modes.
-/

import Fideslib.Chebyshev.Correctness
import Fideslib.PowerBasis.Evaluation

namespace Fideslib.PowerBasis

open Fideslib.Chebyshev (PSRun PS_MODE TerminalSum Visits WSum degree_of_ne_nil emptyRun
  evalMultiplePartialLinearWSumWithBias evalPartialLinearWSumWithBias resize targetLevel
  weightedSum)
open ChebyshevSeries (coefficient degree)
open Polynomial
open PolynomialList (polynomial)

section

variable {K : Type} [Field K] [DecidableEq K]

/-- The list of all powers, each of which exists. -/
def IsPowers (x : K) (k : Nat) (powers : List K) : Prop :=
  powers = (List.range k).map fun index => x ^ (index + 1)

omit [DecidableEq K] in
theorem IsPowers.length {x : K} {k : Nat} {powers : List K} (all : IsPowers x k powers) :
    powers.length = k := by
  rw [all, List.length_map, List.length_range]

omit [DecidableEq K] in
theorem IsPowers.getD {x : K} {k : Nat} {powers : List K} (all : IsPowers x k powers)
    {index : Nat} (below : index < k) : powers.getD index 0 = x ^ (index + 1) := by
  rw [all, List.getD_eq_getElem?_getD, List.getElem?_map, List.getElem?_range below]
  rfl

omit [Field K] [DecidableEq K] in
theorem mapM_some (values : List K) : (values.map some).mapM id = some values := by
  induction values with
  | nil => rfl
  | cons first rest ih =>
      rw [List.map_cons, List.mapM_cons, ih]
      rfl

omit [DecidableEq K] in
/-- A filled vector of powers can be read as a whole. -/
theorem HoldsPowers.mapM {x : K} {k : Nat} {powers : List (Option K)}
    (holds : HoldsPowers x k (· ≤ k) powers) :
    ∃ all, powers.mapM id = some all ∧ IsPowers x k all := by
  have filled : powers = ((List.range k).map fun index => x ^ (index + 1)).map some := by
    apply List.ext_getElem?
    intro index
    by_cases below : index < k
    · have value := holds.read (index + 1) (by omega) (by omega)
      rw [Nat.add_sub_cancel, readPower, Option.join_eq_some_iff] at value
      rw [value, List.getElem?_map, List.getElem?_map, List.getElem?_range below]
      rfl
    · rw [List.getElem?_eq_none (by rw [holds.length]; omega), List.getElem?_eq_none]
      simpa using below
  refine ⟨_, ?_, rfl⟩
  rw [filled]
  exact mapM_some _

theorem weightedSum_eq_eval {x : K} {k : Nat} {ctxs : List K} (all : IsPowers x k ctxs)
    (weights : List K) (enough : weights.length ≤ k + 1) :
    weightedSum ctxs weights (weights.length - 1) + coefficient weights 0 =
      (polynomial weights).eval x := by
  rw [PolynomialList.eval_polynomial, add_comm]
  congr 1
  apply Finset.sum_congr rfl
  intro index below
  have inside := Finset.mem_range.mp below
  rw [all.getD (show index < k by omega)]
  by_cases zero : weights.getD (index + 1) 0 = 0
  · rw [if_neg (not_not.mpr zero), coefficient, zero, zero_mul]
  · rw [if_pos zero, coefficient]

/-- A fused sum is one node of the traversal. -/
theorem fusedSum_visits {x : K} {k : Nat} {ctxs weights : List K} (all : IsPowers x k ctxs)
    (varied : 1 ≤ degree weights) (enough : weights.length ≤ k + 1) {limit : Nat}
    (isLast : limit = weights.length - 1) (target_level : Int) :
    Visits ctxs (fun mode run => fusedSum ctxs mode weights limit target_level run)
      (some { value := (polynomial weights).eval x, level := target_level })
      [{ constants := weights, target_level := target_level }] := by
  have inside := ChebyshevSeries.degree_lt_length (show degree weights ≠ 0 by omega)
  have nonempty : weights ≠ [] := List.ne_nil_of_length_pos (by omega)
  have front := head_eq nonempty
  have value := weightedSum_eq_eval all weights enough
  constructor
  · intro run
    have sum : evalPartialLinearWSumWithBias ctxs weights (coefficient weights 0) limit
        target_level = some { value := (polynomial weights).eval x, level := target_level } := by
      rw [evalPartialLinearWSumWithBias, if_neg (show limit ≠ 0 by omega), if_pos, isLast, value]
      rw [all.length]
      omega
    simp only [fusedSum, front, Option.bind_eq_bind, Option.bind_some, sum]
    rfl
  · intro run
    exact ⟨none, rfl⟩
  · intro run rest stacked
    have result : TerminalSum.result ctxs { constants := weights, target_level := target_level } =
        { value := (polynomial weights).eval x, level := target_level } := by
      rw [← value]
      rfl
    rw [PSRun.Stacked, List.map_singleton, result, List.singleton_append,
      List.reverse_cons] at stacked
    simp only [fusedSum, stacked, List.getLast?_concat, List.dropLast_concat,
      Option.bind_eq_bind, Option.bind_some]
    rfl
  · intro node member
    rw [List.mem_singleton.mp member]
    constructor
    · have nonzero := ChebyshevSeries.coefficient_degree_ne_zero (show degree weights ≠ 0 by omega)
      refine ⟨weights[degree weights], List.getElem_mem inside, ?_⟩
      rw [coefficient, List.getD_eq_getElem?_getD, List.getElem?_eq_getElem inside] at nonzero
      exact nonzero
    · rw [all.length]
      exact enough

/-- Writing the leading one again does not change a short factor. -/
theorem fusedWeights_eq {k : Nat} {coefficients : List K} (monic : MonicList k coefficients) :
    (resize coefficients (k + 1)).set k 1 = coefficients := by
  apply List.ext_getElem?
  intro index
  have length : ((resize coefficients (k + 1)).set k 1).length = k + 1 := by
    rw [List.length_set, Chebyshev.length_resize]
  by_cases inside : index < k + 1
  · have same : coefficient ((resize coefficients (k + 1)).set k 1) index =
        coefficient coefficients index := by
      rw [Chebyshev.coefficient_set _ _ _ (by rw [Chebyshev.length_resize]; omega),
        Chebyshev.coefficient_resize, if_pos inside]
      by_cases top : index = k
      · rw [if_pos top, top, monic.top]
      · rw [if_neg top]
    rw [coefficient, coefficient, List.getD_eq_getElem?_getD, List.getD_eq_getElem?_getD,
      List.getElem?_eq_getElem (by omega), List.getElem?_eq_getElem (by rw [monic.length]; omega),
      Option.getD_some, Option.getD_some] at same
    rw [List.getElem?_eq_getElem (by omega), List.getElem?_eq_getElem (by rw [monic.length]; omega),
      same]
  · rw [List.getElem?_eq_none (by omega), List.getElem?_eq_none (by rw [monic.length]; omega)]

/-- The arguments of the fused recursion hold the powers up to some level. -/
structure FusedAt (args : FusedArguments K) (x : K) (count : Nat) : Prop where
  positive : 1 ≤ args.k
  divides : DividesPolynomial args.LongDivisionPoly
  powers : IsPowers x args.k args.powers
  powers2 : ∀ index, 1 ≤ index → index ≤ count →
    readPower args.powers2 index = some (x ^ (args.k * 2 ^ index))
  norescale : ∀ index, 1 ≤ index → index ≤ count →
    readPower args.powers2_norescale index = some (x ^ (args.k * 2 ^ index))

theorem fusedFactor_visits {args : FusedArguments K} {x : K} {count : Nat}
    (holds : FusedAt args x count)
    {recurse : PS_MODE → List K → Int → K → PSRun K → Option (K × PSRun K)} {m place : Nat}
    {coefficients : List K} {level_offset : Int} (reaches : args.k ≤ place)
    (monic : MonicList place coefficients)
    (recursive : args.k < place → ∃ nodes, ∀ out,
      Visits args.powers (fun mode run => recurse mode coefficients level_offset out run)
        ((polynomial coefficients).eval x) nodes) :
    ∃ nodes, Visits args.powers
      (fun mode run => fusedFactor args mode (recurse mode) m coefficients level_offset run)
      (some ((polynomial coefficients).eval x)) nodes := by
  have positive := holds.positive
  have nonempty : coefficients ≠ [] := by
    apply List.ne_nil_of_length_pos
    rw [monic.length]
    omega
  by_cases higher : args.k < place
  · obtain ⟨nodes, visits⟩ := recursive higher
    use nodes
    apply ((visits 0).map some).congr
    intro mode run
    simp only [fusedFactor, degree_of_ne_nil nonempty, monic.degree, Option.bind_eq_bind,
      Option.bind_some, if_pos higher]
    cases recurse mode coefficients level_offset 0 run <;> rfl
  · have last : place = args.k := by omega
    rw [last] at monic
    have called := fusedSum_visits holds.powers (show 1 ≤ degree coefficients by
      rw [monic.degree]; omega) monic.length.le (show args.k = coefficients.length - 1 by
      rw [monic.length, Nat.add_sub_cancel]) (targetLevel args.levels m level_offset)
    use [{ constants := coefficients, target_level := targetLevel args.levels m level_offset }]
    apply (called.map (Option.map WSum.value)).congr
    intro mode run
    simp only [fusedFactor, degree_of_ne_nil nonempty, monic.degree, Option.bind_eq_bind,
      Option.bind_some, lt_irrefl, if_false, fusedWeights_eq monic]
    cases fusedSum args.powers mode coefficients args.k
      (targetLevel args.levels m level_offset) run <;> rfl

theorem fusedHead_visits {args : FusedArguments K} {x : K} {count : Nat}
    (holds : FusedAt args x count) {m : Nat} {c : List K} {level_offset : Int} {power : K}
    (doubled : readPower args.powers2 (m - 1) = some power)
    (unrescaled : readPower args.powers2_norescale (m - 1) = some power)
    (length : c.length = degree c + 1) (below : degree c < args.k) :
    ∃ nodes, ∀ out, Visits args.powers
      (fun mode run => fusedHead args mode m c level_offset out run)
      (power + (polynomial c).eval x) nodes := by
  have nonempty : c ≠ [] := List.ne_nil_of_length_pos (by omega)
  by_cases constant : degree c = 0
  · have value := constant_eq constant x
    use []
    intro out
    constructor
    · intro run
      rw [PSRun.visit_nil, value]
      simp [fusedHead, degree_of_ne_nil nonempty, constant, doubled, head_eq nonempty]
    · intro run
      rw [PSRun.push_nil]
      simp [fusedHead, degree_of_ne_nil nonempty, constant, doubled, head_eq nonempty]
    · intro run rest stacked
      rw [PSRun.pop_nil stacked, value]
      simp [fusedHead, degree_of_ne_nil nonempty, constant, doubled, head_eq nonempty]
    · intro node member
      simp at member
  · have called := fusedSum_visits holds.powers (show 1 ≤ degree c by omega)
      (show c.length ≤ args.k + 1 by omega) (show degree c = c.length - 1 by omega)
      (targetLevel args.levels m level_offset)
    use [{ constants := c, target_level := targetLevel args.levels m level_offset }]
    intro out
    rw [add_comm power]
    apply (called.map fun sum => sum.elim out fun cu => cu.value + power).congr
    intro mode run
    simp only [fusedHead, degree_of_ne_nil nonempty, Option.bind_eq_bind, Option.bind_some,
      if_neg constant, doubled, unrescaled, ite_self]
    rcases fusedSum args.powers mode c (degree c) (targetLevel args.levels m level_offset) run with
      _ | ⟨_ | cu, after⟩ <;> rfl

/-- The induction follows the recursion of the fused form. -/
theorem innerEvalPolyPSFused_visits {args : FusedArguments K} {x : K} {count : Nat}
    (holds : FusedAt args x count) (m : Nat) (positive : 1 ≤ m) (available : m ≤ count)
    (f : List K) (level_offset : Int)
    (monic : MonicList (2 * (args.k * 2 ^ m - args.k) + args.k) f) :
    ∃ nodes, ∀ out, Visits args.powers
      (fun mode run => innerEvalPolyPSFused args mode (m + 1) f level_offset out run)
      ((polynomial f).eval x) nodes := by
  induction m generalizing f level_offset with
  | zero => omega
  | succ m ih =>
      have kPositive := holds.positive
      have doubling : args.k * 2 ^ (m + 1) = 2 * (args.k * 2 ^ m) := by rw [pow_succ]; ring
      have larger : args.k ≤ args.k * 2 ^ m := Nat.le_mul_of_pos_right _ (Nat.two_pow_pos m)
      obtain ⟨place, isPlace⟩ : ∃ place, args.k * 2 ^ (m + 1) - args.k = place := ⟨_, rfl⟩
      rw [isPlace] at monic
      have next : place = 2 * (args.k * 2 ^ m - args.k) + args.k := by omega
      obtain ⟨r2, subtracted, split⟩ :=
        exists_split holds.divides (show 0 < args.k by omega) (show 0 < place by omega) monic
      have deeper : ∀ (coefficients : List K) (offset : Int), MonicList place coefficients →
          args.k < place → ∃ nodes, ∀ out, Visits args.powers (fun mode run =>
            innerEvalPolyPSFused args mode (m + 1) coefficients offset out run)
            ((polynomial coefficients).eval x) nodes := by
        intro coefficients offset factor higher
        have notLast : 1 ≤ m := by
          by_contra last
          rw [show m = 0 by omega, pow_zero, mul_one] at next
          omega
        rw [next] at factor
        exact ih notLast (by omega) coefficients offset factor
      have index : args.k * 2 ^ (m + 1) = place + args.k := by omega
      have power := holds.powers2 (m + 1) (by omega) available
      have unrescaled := holds.norescale (m + 1) (by omega) available
      rw [index] at power unrescaled
      obtain ⟨nodesQ, visitsQ⟩ := @fusedFactor_visits K _ _ args x count holds
        (fun mode => innerEvalPolyPSFused args mode (m + 1)) (m + 2) place _ level_offset
        (by omega) split.monicQ (deeper _ level_offset split.monicQ)
      obtain ⟨nodesS, visitsS⟩ := @fusedFactor_visits K _ _ args x count holds
        (fun mode => innerEvalPolyPSFused args mode (m + 1)) (m + 2) place _ (level_offset + 1)
        (by omega) split.monicS (deeper _ (level_offset + 1) split.monicS)
      obtain ⟨nodesC, visitsC⟩ := @fusedHead_visits K _ _ args x count holds (m + 2) _
        level_offset _ power unrescaled split.lengthC split.degreeC
      have value := congrArg (eval x) split.sum
      simp only [eval_add, eval_mul, eval_pow, eval_X] at value
      use nodesQ ++ nodesS ++ nodesC
      intro out
      rw [value]
      apply (visitsQ.compose visitsS (visitsC out)).congr
      intro mode run
      rw [innerEvalPolyPSFused]
      simp only [isPlace, Option.bind_eq_bind, Option.bind_some, subtracted]

end

end Fideslib.PowerBasis
