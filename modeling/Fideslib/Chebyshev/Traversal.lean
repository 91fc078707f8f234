/-
This file proves that the recursion reaches the same terminal sums in all three modes.
-/

import Fideslib.Chebyshev.Powers
import Fideslib.Chebyshev.Splitting

namespace Fideslib.Chebyshev

open Polynomial
open Polynomial.Chebyshev (T)
open ChebyshevSeries (coefficient series)

section

variable {K : Type} [Field K] [DecidableEq K]

namespace TerminalSum

/-- This is the weighted sum of a terminal node. -/
def result (ctxs : List K) (node : TerminalSum K) : WSum K where
  value := weightedSum ctxs node.constants (node.constants.length - 1) + node.constants.getD 0 0
  level := node.target_level

/-- The batch needs a nonzero constant and a power for each other constant. -/
def Batchable (ctxs : List K) (node : TerminalSum K) : Prop :=
  (∃ constant ∈ node.constants, constant ≠ 0) ∧ node.constants.length ≤ ctxs.length + 1

end TerminalSum

namespace PSRun

def visit (run : PSRun K) (nodes : List (TerminalSum K)) : PSRun K :=
  { run with visited := run.visited ++ nodes }

def push (run : PSRun K) (nodes : List (TerminalSum K)) : PSRun K where
  record :=
    { run.record with
      constants := run.record.constants ++ nodes.map TerminalSum.constants
      target_level := run.record.target_level ++ nodes.map TerminalSum.target_level }
  visited := run.visited ++ nodes

/-- The stack has the results of some nodes on top, the first of them at its back. -/
def Stacked (ctxs : List K) (run : PSRun K) (nodes : List (TerminalSum K))
    (rest : List (WSum K)) : Prop :=
  run.record.rev_result_ciphertexts = (nodes.map (TerminalSum.result ctxs) ++ rest).reverse

def pop (run : PSRun K) (nodes : List (TerminalSum K)) (rest : List (WSum K)) : PSRun K where
  record := { run.record with rev_result_ciphertexts := rest.reverse }
  visited := run.visited ++ nodes

omit [Field K] [DecidableEq K] in
theorem visit_nil (run : PSRun K) : run.visit [] = run := by
  rw [visit, List.append_nil]

omit [Field K] [DecidableEq K] in
theorem visit_visit (run : PSRun K) (first second : List (TerminalSum K)) :
    (run.visit first).visit second = run.visit (first ++ second) := by
  simp only [visit, List.append_assoc]

omit [Field K] [DecidableEq K] in
theorem push_nil (run : PSRun K) : run.push [] = run := by
  simp only [push, List.map_nil, List.append_nil]

omit [Field K] [DecidableEq K] in
theorem push_push (run : PSRun K) (first second : List (TerminalSum K)) :
    (run.push first).push second = run.push (first ++ second) := by
  simp only [push, List.append_assoc, List.map_append]

theorem Stacked.split {ctxs : List K} {run : PSRun K} {first second : List (TerminalSum K)}
    {rest : List (WSum K)} (stacked : run.Stacked ctxs (first ++ second) rest) :
    run.Stacked ctxs first (second.map (TerminalSum.result ctxs) ++ rest) := by
  rw [Stacked, stacked, List.map_append, List.append_assoc]

theorem stacked_pop (ctxs : List K) (run : PSRun K) (first second : List (TerminalSum K))
    (rest : List (WSum K)) :
    (run.pop first (second.map (TerminalSum.result ctxs) ++ rest)).Stacked ctxs second rest := rfl

theorem pop_nil {ctxs : List K} {run : PSRun K} {rest : List (WSum K)}
    (stacked : run.Stacked ctxs [] rest) : run.pop [] rest = run := by
  rw [Stacked, List.map_nil, List.nil_append] at stacked
  rw [pop, List.append_nil, ← stacked]

omit [Field K] [DecidableEq K] in
theorem pop_pop (run : PSRun K) (first second : List (TerminalSum K))
    (between rest : List (WSum K)) :
    (run.pop first between).pop second rest = run.pop (first ++ second) rest := by
  simp only [pop, List.append_assoc]

end PSRun

/-- This is a part of the recursion at some output, which visits the same nodes in every mode. -/
structure Visits {A : Type} (ctxs : List K) (part : PS_MODE → PSRun K → Option (A × PSRun K))
    (result : A) (nodes : List (TerminalSum K)) : Prop where
  full : ∀ run, part .FULL run = some (result, run.visit nodes)
  record : ∀ run, ∃ unwritten, part .RECORD run = some (unwritten, run.push nodes)
  remaining : ∀ run rest, run.Stacked ctxs nodes rest →
    part .REMAINING run = some (result, run.pop nodes rest)
  batchable : ∀ node ∈ nodes, node.Batchable ctxs

theorem Visits.congr {A : Type} {ctxs : List K}
    {part other : PS_MODE → PSRun K → Option (A × PSRun K)} {result : A}
    {nodes : List (TerminalSum K)} (visits : Visits ctxs other result nodes)
    (same : ∀ mode run, part mode run = other mode run) : Visits ctxs part result nodes := by
  have equal : part = other := by
    funext mode run
    exact same mode run
  rw [equal]
  exact visits

/-- A value made of the result visits the nodes of the result. -/
theorem Visits.map {A B : Type} {ctxs : List K} {part : PS_MODE → PSRun K → Option (A × PSRun K)}
    {result : A} {nodes : List (TerminalSum K)} (visits : Visits ctxs part result nodes)
    (make : A → B) :
    Visits ctxs (fun mode run => (part mode run).map fun (value, after) => (make value, after))
      (make result) nodes := by
  constructor
  · intro run
    rw [visits.full, Option.map_some]
  · intro run
    obtain ⟨unwritten, recorded⟩ := visits.record run
    use make unwritten
    rw [recorded, Option.map_some]
  · intro run rest stacked
    rw [visits.remaining run rest stacked, Option.map_some]
  · exact visits.batchable

/-- Three parts in a row visit their nodes in a row. -/
theorem Visits.compose {ctxs : List K} {q s c : K} {nodesQ nodesS nodesC : List (TerminalSum K)}
    {partQ partS : PS_MODE → PSRun K → Option (Option K × PSRun K)}
    {partC : PS_MODE → PSRun K → Option (K × PSRun K)}
    (visitsQ : Visits ctxs partQ (some q) nodesQ) (visitsS : Visits ctxs partS (some s) nodesS)
    (visitsC : Visits ctxs partC c nodesC) :
    Visits ctxs (fun mode run =>
      (partQ mode run).bind fun afterQ => (partS mode afterQ.2).bind fun afterS =>
        (partC mode afterS.2).bind fun afterC =>
          if mode = .RECORD then
            some (afterC.1, afterC.2)
          else
            afterQ.1.bind fun qu => afterS.1.bind fun su =>
              some (afterC.1 * qu + su, afterC.2))
      (c * q + s) (nodesQ ++ nodesS ++ nodesC) := by
  constructor
  · intro run
    simp only [visitsQ.full, visitsS.full, visitsC.full, PSRun.visit_visit, Option.bind_some,
      reduceCtorEq, if_false, List.append_assoc]
  · intro run
    obtain ⟨unwrittenQ, recordedQ⟩ := visitsQ.record run
    obtain ⟨unwrittenS, recordedS⟩ := visitsS.record (run.push nodesQ)
    rw [PSRun.push_push] at recordedS
    obtain ⟨unwrittenC, recordedC⟩ := visitsC.record (run.push (nodesQ ++ nodesS))
    rw [PSRun.push_push] at recordedC
    use unwrittenC
    simp only [recordedQ, recordedS, recordedC, Option.bind_some, if_pos]
  · intro run rest stacked
    rw [List.append_assoc] at stacked
    have replayedQ := visitsQ.remaining run _ stacked.split
    have stackedS := PSRun.stacked_pop ctxs run nodesQ (nodesS ++ nodesC) rest
    have replayedS := visitsS.remaining _ _ stackedS.split
    rw [PSRun.pop_pop] at replayedS
    have stackedC := PSRun.stacked_pop ctxs run (nodesQ ++ nodesS) nodesC rest
    have replayedC := visitsC.remaining _ _ stackedC
    rw [PSRun.pop_pop] at replayedC
    simp only [replayedQ, replayedS, replayedC, Option.bind_some, reduceCtorEq, if_false]
  · intro node member
    rw [List.mem_append, List.mem_append] at member
    obtain (inQ | inS) | inC := member
    · exact visitsQ.batchable node inQ
    · exact visitsS.batchable node inS
    · exact visitsC.batchable node inC

theorem weightedSum_basis {y : K} {k limit : Nat} {ctxs : List K} (basis : IsBasis y k ctxs)
    (enough : limit ≤ k) (weights : List K) :
    weightedSum ctxs weights limit =
      ∑ index ∈ Finset.range limit,
        coefficient weights (index + 1) * (T K (index + 1 : Nat)).eval y := by
  apply Finset.sum_congr rfl
  intro index below
  have inside := Finset.mem_range.mp below
  rw [basis.getD (show index < k by omega)]
  by_cases zero : weights.getD (index + 1) 0 = 0
  · rw [if_neg (not_not.mpr zero), coefficient, zero, zero_mul]
  · rw [if_pos zero, coefficient]

/-- A weighted sum with half of the first weight is the value of the series. -/
theorem weightedSum_eq_eval [NeZero (2 : K)] {y : K} {k : Nat} {ctxs : List K}
    (basis : IsBasis y k ctxs) (weights : List K) (enough : weights.length ≤ k + 1) :
    weightedSum ctxs weights (weights.length - 1) + coefficient weights 0 / 2 =
      (series weights).eval y := by
  rw [weightedSum_basis basis (by omega), ChebyshevSeries.eval_series, Finset.sum_Ico_eq_sum_range,
    add_comm]
  congr 1
  apply Finset.sum_congr rfl
  intro index _
  rw [add_comm 1 index]

def terminalNode (weights : List K) (target_level : Int) : TerminalSum K where
  constants := halveFront weights
  target_level := target_level

theorem terminalNode_result [NeZero (2 : K)] {y : K} {k : Nat} {ctxs : List K}
    (basis : IsBasis y k ctxs) (weights : List K) (enough : weights.length ≤ k + 1)
    (target_level : Int) :
    (terminalNode weights target_level).result ctxs =
      { value := (series weights).eval y, level := target_level } := by
  rw [← weightedSum_eq_eval basis weights enough]
  cases weights with
  | nil => simp [TerminalSum.result, terminalNode, halveFront, coefficient, weightedSum]
  | cons front rest => rfl

theorem terminalNode_batchable {k : Nat} {ctxs weights : List K} (length : ctxs.length = k)
    (varied : ChebyshevSeries.degree weights ≠ 0) (enough : weights.length ≤ k + 1)
    (target_level : Int) : (terminalNode weights target_level).Batchable ctxs := by
  have inside := ChebyshevSeries.degree_lt_length varied
  have nonzero := ChebyshevSeries.coefficient_degree_ne_zero varied
  cases weights with
  | nil => simp at inside
  | cons front rest =>
      constructor
      · obtain ⟨place, higher⟩ := Nat.exists_eq_succ_of_ne_zero varied
        rw [higher] at inside nonzero
        have bound : place < rest.length := by simpa using inside
        have value : coefficient (front :: rest) (place + 1) = rest[place] := by
          simp [coefficient, bound]
        rw [Nat.succ_eq_add_one, value] at nonzero
        exact ⟨rest[place], List.mem_cons_of_mem _ (List.getElem_mem bound), nonzero⟩
      · rw [length]
        exact enough

/-- A terminal sum is one node of the traversal. -/
theorem terminalSum_visits [NeZero (2 : K)] {y : K} {k : Nat} {ctxs weights : List K}
    (basis : IsBasis y k ctxs) (varied : ChebyshevSeries.degree weights ≠ 0)
    (enough : weights.length ≤ k + 1) (target_level : Int) :
    Visits ctxs (fun mode run => terminalSum ctxs mode weights target_level run)
      (some { value := (series weights).eval y, level := target_level })
      [terminalNode weights target_level] := by
  have inside := ChebyshevSeries.degree_lt_length varied
  have nonempty : weights ≠ [] := List.ne_nil_of_length_pos (by omega)
  have result := terminalNode_result basis weights enough target_level
  constructor
  · intro run
    have front : weights.head? = some (coefficient weights 0) := by
      cases weights with
      | nil => exact absurd rfl nonempty
      | cons front rest => rfl
    have sum : evalPartialLinearWSumWithBias ctxs weights (coefficient weights 0 / 2)
        (weights.length - 1) target_level =
        some { value := (series weights).eval y, level := target_level } := by
      rw [evalPartialLinearWSumWithBias, if_neg (show weights.length - 1 ≠ 0 by omega), if_pos, weightedSum_eq_eval basis _ enough]
      rw [basis.length]
      omega
    simp only [terminalSum, front, Option.bind_eq_bind, Option.bind_some, sum]
    rfl
  · intro run
    refine ⟨none, ?_⟩
    simp only [terminalSum, if_neg nonempty]
    rfl
  · intro run rest stacked
    rw [PSRun.Stacked, List.map_singleton, result, List.singleton_append,
      List.reverse_cons] at stacked
    simp only [terminalSum, stacked, List.getLast?_concat, List.dropLast_concat,
      Option.bind_eq_bind, Option.bind_some]
    rfl
  · intro node member
    rw [List.mem_singleton.mp member]
    exact terminalNode_batchable basis.length varied enough target_level

/-- A recursive or terminal factor is visited like the part that it calls. -/
theorem evalFactor_visits [NeZero (2 : K)] {args : PSArguments K} {y : K}
    (basis : IsBasis y args.k args.T)
    {recurse : PS_MODE → List K → Int → K → PSRun K → Option (K × PSRun K)} {m : Nat}
    {coefficients : List K} {level_offset : Int}
    (length : coefficients.length = ChebyshevSeries.degree coefficients + 1)
    (varied : ChebyshevSeries.degree coefficients ≠ 0)
    (recursive : args.k < ChebyshevSeries.degree coefficients → ∃ nodes, ∀ out,
      Visits args.T (fun mode run => recurse mode coefficients level_offset out run)
        ((series coefficients).eval y) nodes) :
    ∃ nodes, Visits args.T
      (fun mode run => evalFactor args mode (recurse mode) m coefficients level_offset run)
      (some ((series coefficients).eval y)) nodes := by
  have nonempty : coefficients ≠ [] := List.ne_nil_of_length_pos (by omega)
  by_cases higher : args.k < ChebyshevSeries.degree coefficients
  · obtain ⟨nodes, visits⟩ := recursive higher
    use nodes
    apply ((visits 0).map some).congr
    intro mode run
    simp only [evalFactor, degree_of_ne_nil nonempty, Option.bind_eq_bind, Option.bind_some,
      if_pos higher]
    cases recurse mode coefficients level_offset 0 run <;> rfl
  · have called := terminalSum_visits basis varied (by omega)
      (targetLevel args.levels m level_offset)
    use [terminalNode coefficients (targetLevel args.levels m level_offset)]
    apply (called.map (Option.map WSum.value)).congr
    intro mode run
    simp only [evalFactor, degree_of_ne_nil nonempty, Option.bind_eq_bind, Option.bind_some,
      if_neg higher]
    cases terminalSum args.T mode coefficients (targetLevel args.levels m level_offset) run <;> rfl

/-- The head adds the quotient c to the doubled power, whether c is constant or not. -/
theorem evalHead_visits [NeZero (2 : K)] {args : PSArguments K} {y : K}
    (basis : IsBasis y args.k args.T) {m : Nat} {c : List K} {level_offset : Int} {power : K}
    (doubled : args.T2[m - 1]? = some power) (unrescaled : args.T2_norescale[m - 1]? = some power)
    (length : c.length = ChebyshevSeries.degree c + 1)
    (below : ChebyshevSeries.degree c < args.k) :
    ∃ nodes, ∀ out, Visits args.T
      (fun mode run => evalHead args mode m c level_offset out run)
      (power + (series c).eval y) nodes := by
  have nonempty : c ≠ [] := List.ne_nil_of_length_pos (by omega)
  by_cases varied : 1 ≤ ChebyshevSeries.degree c
  · have called := terminalSum_visits basis (by omega) (show c.length ≤ args.k + 1 by omega)
      (targetLevel args.levels m level_offset)
    use [terminalNode c (targetLevel args.levels m level_offset)]
    intro out
    rw [add_comm power]
    apply (called.map fun sum => sum.elim out fun cu => cu.value + power).congr
    intro mode run
    simp only [evalHead, degree_of_ne_nil nonempty, Option.bind_eq_bind, Option.bind_some,
      if_pos varied, doubled, unrescaled, ite_self]
    rcases terminalSum args.T mode c (targetLevel args.levels m level_offset) run with
      _ | ⟨_ | cu, after⟩ <;> rfl
  · have constant : (series c).eval y = coefficient c 0 / 2 := by
      rw [ChebyshevSeries.eval_series, length, show ChebyshevSeries.degree c = 0 by omega]
      simp
    have front : c.head? = some (coefficient c 0) := by
      cases c with
      | nil => exact absurd rfl nonempty
      | cons front rest => rfl
    use []
    intro out
    constructor
    · intro run
      rw [PSRun.visit_nil, constant]
      simp [evalHead, degree_of_ne_nil nonempty, varied, doubled, front]
    · intro run
      use out
      rw [PSRun.push_nil]
      simp [evalHead, degree_of_ne_nil nonempty, varied]
    · intro run rest stacked
      rw [PSRun.pop_nil stacked, constant]
      simp [evalHead, degree_of_ne_nil nonempty, varied, doubled, front]
    · intro node member
      simp at member

/-- The doubled powers are available up to some index. -/
structure ArgumentsAt (args : PSArguments K) (y : K) (count : Nat) : Prop where
  positive : 1 ≤ args.k
  divides : DividesSeries args.LongDivisionChebyshev
  basis : IsBasis y args.k args.T
  T2 : ∀ index, 1 ≤ index → index ≤ count →
    args.T2[index]? = some ((T K (args.k * 2 ^ index : Nat)).eval y)
  T2_norescale : args.T2_norescale = args.T2

/-- The induction follows the recursion: both factors have the degree of the next level. -/
theorem innerEvalChebyshevPS_visits [NeZero (2 : K)] {args : PSArguments K} {y : K} {count : Nat}
    (holds : ArgumentsAt args y count) (m : Nat) (positive : 1 ≤ m) (available : m ≤ count)
    (f : List K) (level_offset : Int)
    (degree : ChebyshevSeries.degree f = 2 * (args.k * 2 ^ m - args.k) + args.k) :
    ∃ nodes, ∀ out, Visits args.T
      (fun mode run => innerEvalChebyshevPS args mode (m + 1) f level_offset out run)
      ((series f).eval y) nodes := by
  induction m generalizing f level_offset with
  | zero => omega
  | succ m ih =>
      have kPositive := holds.positive
      have doubling : args.k * 2 ^ (m + 1) = 2 * (args.k * 2 ^ m) := by rw [pow_succ]; ring
      have larger : args.k ≤ args.k * 2 ^ m := Nat.le_mul_of_pos_right _ (Nat.two_pow_pos m)
      obtain ⟨place, isPlace⟩ : ∃ place, args.k * 2 ^ (m + 1) - args.k = place := ⟨_, rfl⟩
      rw [isPlace] at degree
      have placePositive : 0 < place := by omega
      have next : place = 2 * (args.k * 2 ^ m - args.k) + args.k := by omega
      obtain ⟨r2, subtracted, split⟩ := exists_split holds.divides (show 0 < args.k by omega)
        placePositive degree
      have deeper : ∀ (coefficients : List K) (offset : Int),
          ChebyshevSeries.degree coefficients = place →
          args.k < ChebyshevSeries.degree coefficients → ∃ nodes, ∀ out,
            Visits args.T (fun mode run =>
              innerEvalChebyshevPS args mode (m + 1) coefficients offset out run)
              ((series coefficients).eval y) nodes := by
        intro coefficients offset reaches higher
        have notLast : 1 ≤ m := by
          by_contra last
          have zero : m = 0 := by omega
          rw [zero, pow_zero, mul_one] at next
          omega
        exact ih notLast (by omega) coefficients offset (reaches.trans next)
      have power := holds.T2 (m + 1) (by omega) available
      have index : args.k * 2 ^ (m + 1) = place + args.k := by omega
      rw [index] at power
      obtain ⟨nodesQ, visitsQ⟩ := @evalFactor_visits K _ _ _ args y holds.basis
        (fun mode => innerEvalChebyshevPS args mode (m + 1)) (m + 2) _ level_offset
        (by rw [split.lengthQ, split.degreeQ]) (by rw [split.degreeQ]; omega)
        (deeper _ level_offset split.degreeQ)
      obtain ⟨nodesS, visitsS⟩ := @evalFactor_visits K _ _ _ args y holds.basis
        (fun mode => innerEvalChebyshevPS args mode (m + 1)) (m + 2) _ (level_offset + 1)
        (by rw [split.lengthS, split.degreeS]) (by rw [split.degreeS]; omega)
        (deeper _ (level_offset + 1) split.degreeS)
      obtain ⟨nodesC, visitsC⟩ := @evalHead_visits K _ _ _ args y holds.basis (m + 2) _ level_offset
        _ power (by rw [holds.T2_norescale]; exact power) split.lengthC split.degreeC
      have value := congrArg (eval y) split.sum
      simp only [eval_add, eval_mul] at value
      use nodesQ ++ nodesS ++ nodesC
      intro out
      rw [value]
      apply (visitsQ.compose visitsS (visitsC out)).congr
      intro mode run
      rw [innerEvalChebyshevPS]
      simp only [isPlace, Option.bind_eq_bind, Option.bind_some, subtracted]

end

end Fideslib.Chebyshev
