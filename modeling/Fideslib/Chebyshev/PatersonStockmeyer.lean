/-
This file models the evaluation of a Chebyshev series by the Paterson-Stockmeyer recursion.

Ciphertexts are their values in exact arithmetic, where a rescale and a level drop keep the value.
An absent result is a thrown exception or a read outside of a vector.
-/

import Fideslib.Library.ChebyshevSeries
import Mathlib.Data.List.DropRight

namespace Fideslib.Chebyshev

open scoped ChebyshevSeries

inductive PS_MODE where
  | FULL
  | RECORD
  | REMAINING
  deriving DecidableEq

/-- A weighted sum lands at the level that its caller asks for. -/
structure WSum (K : Type) where
  value : K
  level : Int

/-- The result vector is a stack that is read from its back. -/
structure PSRecordFused (K : Type) where
  constants : List (List K)
  target_level : List Int
  rev_result_ciphertexts : List (WSum K)

/-- A terminal sum is a vector of constants, with the bias in front, and a level. -/
structure TerminalSum (K : Type) where
  constants : List K
  target_level : Int

/-- The trace lists the terminal sums in the order in which the recursion reaches them. -/
structure PSRun (K : Type) where
  record : PSRecordFused K
  visited : List (TerminalSum K)

structure LongDiv (K : Type) where
  q : List K
  r : List K

/-- These are the levels that the rescaling technique gives to the doubled powers. -/
structure PSLevels where
  T2_level : Nat → Int
  T2_NoiseLevel : Nat → Nat
  T2_norescale_level : Nat → Int

/-- These arguments stay the same through the whole recursion. -/
structure PSArguments (K : Type) where
  LongDivisionChebyshev : List K → List K → LongDiv K
  k : Nat
  T : List K
  T2 : List K
  T2_norescale : List K
  levels : PSLevels

def emptyRun (K : Type) : PSRun K where
  record := { constants := [], target_level := [], rev_result_ciphertexts := [] }
  visited := []

section

variable {K : Type} [Field K] [DecidableEq K]

/-- The degree of an empty vector is an error. -/
def Degree (coefficients : List K) : Option Nat :=
  if coefficients = [] then none else some (ChebyshevSeries.degree coefficients)

/-- A vector is cut or filled up with zeros. -/
def resize (coefficients : List K) (size : Nat) : List K := coefficients.takeD size 0

def setBack (coefficients : List K) (value : K) : List K :=
  coefficients.set (coefficients.length - 1) value

def halveFront : List K → List K
  | [] => []
  | front :: rest => front / 2 :: rest

/-- A term with a zero weight is left out. -/
def weightedSum (ctxs weights : List K) (limit : Nat) : K :=
  ∑ index ∈ Finset.range limit,
    if weights.getD (index + 1) 0 ≠ 0 then weights.getD (index + 1) 0 * ctxs.getD index 0 else 0

def evalPartialLinearWSumWithBias (ctxs weights : List K) (bias : K) (limit : Nat)
    (target_level : Int) : Option (WSum K) :=
  let terms := if limit = 0 then ctxs.length else limit
  if 1 ≤ terms ∧ terms ≤ ctxs.length ∧ terms < weights.length then
    some { value := weightedSum ctxs weights terms + bias, level := target_level }
  else
    none

/-- This is one output of the batch, whose trailing zero weights are removed first. -/
def batchedSum (ctxs weights : List K) (target_level : Int) : Option (WSum K) :=
  match weights.rdropWhile (· = 0) with
  | [] => none
  | bias :: terms =>
      if terms.length ≤ ctxs.length ∧ ctxs ≠ [] then
        some { value := weightedSum ctxs (bias :: terms) terms.length + bias, level := target_level }
      else
        none

def evalMultiplePartialLinearWSumWithBias (ctxs : List K) (weights : List (List K))
    (target_level : List Int) : Option (List (WSum K)) :=
  if weights.length = target_level.length then
    (weights.zip target_level).mapM fun output => batchedSum ctxs output.1 output.2
  else
    none

/-- A terminal sum is recorded, replayed from the stack or evaluated in place. -/
def terminalSum (ctxs : List K) (mode : PS_MODE) (weights : List K) (target_level : Int)
    (run : PSRun K) : Option (Option (WSum K) × PSRun K) :=
  let visited := run.visited ++ [{ constants := halveFront weights, target_level := target_level }]
  match mode with
  | .RECORD =>
      if weights = [] then
        none
      else
        some (none,
          { record :=
              { run.record with
                constants := run.record.constants ++ [halveFront weights]
                target_level := run.record.target_level ++ [target_level] }
            visited := visited })
  | .REMAINING => do
      let sum ← run.record.rev_result_ciphertexts.getLast?
      some (some sum,
        { record :=
            { run.record with
              rev_result_ciphertexts := run.record.rev_result_ciphertexts.dropLast }
          visited := visited })
  | .FULL => do
      let front ← weights.head?
      let sum ← evalPartialLinearWSumWithBias ctxs weights (front / 2) (weights.length - 1)
        target_level
      some (some sum, { run with visited := visited })

/-- The remainder of the first division loses the polynomial of index k2m2k. -/
def subtractPower (k2m2k : Nat) (r : List K) : Option (List K) := do
  let n ← Degree r
  if k2m2k ≤ n then
    let resized := resize r (n + 1)
    some (resized.set k2m2k (resized.getD k2m2k 0 - 1))
  else
    some (setBack (resize r (k2m2k + 1)) (-1))

def targetLevel (levels : PSLevels) (m : Nat) (level_offset : Int) : Int :=
  levels.T2_level (m - 1) + (if levels.T2_NoiseLevel (m - 1) = 1 then 1 else 0) - level_offset

/-- The factors q and s2 recurse above degree k and are terminal sums otherwise. -/
def evalFactor (args : PSArguments K) (mode : PS_MODE)
    (recurse : List K → Int → K → PSRun K → Option (K × PSRun K)) (m : Nat)
    (coefficients : List K) (level_offset : Int) (run : PSRun K) :
    Option (Option K × PSRun K) := do
  let degree ← Degree coefficients
  if args.k < degree then
    let (value, after) ← recurse coefficients level_offset 0 run
    some (some value, after)
  else
    let (sum, after) ← terminalSum args.T mode coefficients
      (targetLevel args.levels m level_offset) run
    some (sum.map WSum.value, after)

/-- The quotient c is added to the doubled power, before or after the rescale. -/
def evalHead (args : PSArguments K) (mode : PS_MODE) (m : Nat) (c : List K) (level_offset : Int)
    (out : K) (run : PSRun K) : Option (K × PSRun K) := do
  let degree ← Degree c
  if 1 ≤ degree then
    let (sum, after) ← terminalSum args.T mode c (targetLevel args.levels m level_offset) run
    match sum with
    | none => some (out, after)
    | some cu =>
        if cu.level = args.levels.T2_norescale_level (m - 1) then
          let power ← args.T2_norescale[m - 1]?
          some (cu.value + power, after)
        else
          let power ← args.T2[m - 1]?
          some (cu.value + power, after)
  else if mode = .RECORD then
    some (out, run)
  else
    let power ← args.T2[m - 1]?
    let front ← c.head?
    some (power + front / 2, run)

/-- The output stays as it was while terminal sums are only recorded. -/
def innerEvalChebyshevPS (args : PSArguments K) (mode : PS_MODE) :
    Nat → List K → Int → K → PSRun K → Option (K × PSRun K)
  | 0, _, _, _, _ => none
  | m + 1, coefficients, level_offset, out, run => do
      let k2m2k := args.k * 2 ^ m - args.k
      let Tkm := setBack (List.replicate (k2m2k + args.k + 1) 0) 1
      let divqr := args.LongDivisionChebyshev coefficients Tkm
      let r2 ← subtractPower k2m2k divqr.r
      let divcs := args.LongDivisionChebyshev r2 divqr.q
      let (qu, afterQ) ← evalFactor args mode (innerEvalChebyshevPS args mode m) (m + 1)
        divqr.q level_offset run
      let s2 := setBack (resize divcs.r (k2m2k + 1)) 1
      let (su, afterS) ← evalFactor args mode (innerEvalChebyshevPS args mode m) (m + 1)
        s2 (level_offset + 1) afterQ
      let (cu, afterC) ← evalHead args mode (m + 1) divcs.q level_offset out afterS
      if mode = .RECORD then
        some (cu, afterC)
      else
        let qu ← qu
        let su ← su
        some (cu * qu + su, afterC)

/-- The input is moved from the interval between both bounds to the one from -1 to 1. -/
def chebyshevArgument (x a b : K) : K :=
  if a ≠ -1 ∨ b ≠ 1 then
    let alpha := 2 / (b - a)
    let beta := a * alpha
    let scaled := if alpha ≠ 1 then x * alpha else x
    if -1 - beta ≠ 0 then scaled + (-1 - beta) else scaled
  else
    x

/-- The powers up to an index are built from two powers near half of the index. -/
def chebyshevPowers (y : K) : Nat → Option (List K)
  | 0 => some [y]
  | 1 => some [y]
  | i + 2 => do
      let T ← chebyshevPowers y (i + 1)
      let index := i + 2
      if index % 2 = 1 then
        let lower ← T[index / 2 - 1]?
        let upper ← T[index / 2]?
        let first ← T[0]?
        some (T ++ [lower * upper + lower * upper - first])
      else
        let half ← T[index / 2 - 1]?
        some (T ++ [half * half + half * half - 1])

/-- These are the doubled powers, the same before their rescale and T2km1. -/
structure DoubledPowers (K : Type) where
  T2 : List K
  T2_norescale : List K
  T2km1 : K

/-- The first doubling starts from the last power. -/
def doublingBase (last : K) (T2 : List K) (i : Nat) : Option K :=
  if i = 0 then some last else T2[i]?

/-- The first entry of both vectors is an unused ciphertext. -/
def doubledPowers (T : List K) : Nat → Option (DoubledPowers K)
  | 0 => do
      let last ← T.getLast?
      some { T2 := [0], T2_norescale := [0], T2km1 := last }
  | i + 1 => do
      let powers ← doubledPowers T i
      let last ← T.getLast?
      let base ← doublingBase last powers.T2 i
      let square := base * base + base * base - 1
      let product := powers.T2km1 * square
      some
        { T2 := powers.T2 ++ [square]
          T2_norescale := powers.T2_norescale ++ [square]
          T2km1 := product + product - last }

/-- All terminal sums are evaluated during the recursion. -/
def sequentialPS (args : PSArguments K) (m : Nat) (f2 : List K) (x : K) :
    Option (K × PSRun K) :=
  innerEvalChebyshevPS args .FULL m f2 0 x (emptyRun K)

/-- The terminal sums are recorded and nothing is evaluated. -/
def recordPS (args : PSArguments K) (m : Nat) (f2 : List K) (x : K) : Option (PSRun K) := do
  let (_, run) ← innerEvalChebyshevPS args .RECORD m f2 0 x (emptyRun K)
  some run

/-- The recursion takes its terminal sums from the reversed batch. -/
def replayPS (args : PSArguments K) (m : Nat) (f2 : List K) (x : K) (record : PSRecordFused K)
    (ws : List (WSum K)) : Option (K × PSRun K) :=
  innerEvalChebyshevPS args .REMAINING m f2 0 x
    { record := { record with rev_result_ciphertexts := ws.reverse }, visited := [] }

def batchedPS (args : PSArguments K) (m : Nat) (f2 : List K) (x : K) :
    Option (K × PSRun K) := do
  let recorded ← recordPS args m f2 x
  let ws ← evalMultiplePartialLinearWSumWithBias args.T recorded.record.constants
    recorded.record.target_level
  replayPS args m f2 x recorded.record ws

/-- These are the arguments of the recursion at one point. -/
def seriesArguments (LongDivisionChebyshev : List K → List K → LongDiv K) (levels : PSLevels)
    (k m : Nat) (y : K) : Option (PSArguments K × K) := do
  let T ← chebyshevPowers y k
  let powers ← doubledPowers T (m - 1)
  some
    ({ LongDivisionChebyshev := LongDivisionChebyshev
       k := k
       T := T
       T2 := powers.T2
       T2_norescale := powers.T2_norescale
       levels := levels },
     powers.T2km1)

/-- The power of index k(2^m - 1) is added to the series that the recursion evaluates. -/
def raisedCoefficients (k m : Nat) (coefficients : List K) : Option (List K) := do
  let degree ← Degree coefficients
  let k2m2k := k * 2 ^ (m - 1) - k
  some (setBack (resize (resize coefficients (degree + 1)) (2 * k2m2k + k + 1)) 1)

/-- This is the evaluation after k and m are chosen. -/
def evalChebyshevSeriesPS (SEQUENTIAL_PS : Bool)
    (LongDivisionChebyshev : List K → List K → LongDiv K) (levels : PSLevels) (k m : Nat)
    (coefficients : List K) (lower_bound upper_bound x : K) : Option K := do
  let (args, T2km1) ← seriesArguments LongDivisionChebyshev levels k m
    (chebyshevArgument x lower_bound upper_bound)
  let f2 ← raisedCoefficients k m coefficients
  let (value, _) ← if SEQUENTIAL_PS then sequentialPS args m f2 x else batchedPS args m f2 x
  some (value - T2km1)

/-- Short series scale the input without a test of the factor. -/
def linearArgument (x a b : K) : K :=
  if a = -1 ∧ b = 1 then
    x
  else
    let alpha := 2 / (b - a)
    let beta := a * alpha
    if -1 - beta ≠ 0 then x * alpha + (-1 - beta) else x * alpha

/-- The last index is past every power when there are fewer than two coefficients. -/
def evalChebyshevSeriesLinear (coefficients : List K) (a b x : K) : Option K :=
  match coefficients with
  | front :: first :: rest => do
      let weights := first :: rest
      let T ← chebyshevPowers (linearArgument x a b) weights.length
      let k := rest.length
      let last ← T[k]?
      let weight ← weights[k]?
      let sum := (List.range k).foldl (fun result index =>
        if weights.getD index 0 ≠ 0 then
          result + T.getD index 0 * weights.getD index 0
        else
          result) (last * weight)
      some (sum + front / 2)
  | _ => none

def evalChebyshevSeries (LongDivisionChebyshev : List K → List K → LongDiv K)
    (ComputeDegreesPS : Nat → Nat × Nat) (levels : PSLevels) (coefficients : List K)
    (lower_bound upper_bound x : K) : Option K := do
  let degree ← Degree coefficients
  if degree < 5 then
    evalChebyshevSeriesLinear coefficients lower_bound upper_bound x
  else
    let degs := ComputeDegreesPS degree
    evalChebyshevSeriesPS false LongDivisionChebyshev levels degs.1 degs.2 coefficients
      lower_bound upper_bound x

end

end Fideslib.Chebyshev
