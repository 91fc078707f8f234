/-
This file models the first powers of a ciphertext and the evaluation of a polynomial on them.
-/

import Fideslib.Chebyshev.PatersonStockmeyer

namespace Fideslib.PowerBasis

structure SeriesPowers (K : Type) where
  powers : List (Option K)
  powers2 : List (Option K)
  powers2_norescale : List (Option K)
  power2km1 : Option K
  k : Nat
  m : Nat

section

variable {K : Type} [Field K]

def readPower (powers : List (Option K)) (index : Nat) : Option K := powers[index]?.join

/-- All powers but the first start out empty. -/
def firstPowers (x : K) (k : Nat) : Option (List (Option K)) :=
  if 1 ≤ k then some ((List.replicate k none).set 0 (some x)) else none

/-- The position of the highest bit counts from one. -/
def msbOf (v : Nat) : Nat := Nat.log2 v + 1

def isPowerOfTwo (i : Nat) : Bool := i &&& (i - 1) = 0

/-- The index without its highest bit is needed for the power of the index. -/
def withoutMsb (i : Nat) : Nat := i &&& (2 ^ (msbOf i - 1) - 1)

theorem withoutMsb_lt {i : Nat} (composite : isPowerOfTwo i = false) : withoutMsb i < i := by
  have nonzero : i ≠ 0 := by
    intro zero
    rw [zero] at composite
    exact absurd composite (by decide)
  have small : withoutMsb i < 2 ^ (msbOf i - 1) := by
    rw [withoutMsb, Nat.and_two_pow_sub_one_eq_mod]
    exact Nat.mod_lt _ (Nat.two_pow_pos _)
  exact small.trans_le (Nat.log2_self_le nonzero)

/-- The marks of a composite index cover every index on its way to a power of two. -/
def markIndices (marks : Nat → Bool) (rem : Nat) : Nat → Bool :=
  if composite : isPowerOfTwo rem = false then
    markIndices (Function.update marks (rem - 1) true) (withoutMsb rem)
  else
    marks
termination_by rem
decreasing_by exact withoutMsb_lt composite

variable [DecidableEq K]

/-- The indices are visited from the highest one down. -/
def neededIndices (coefficients : List K) : Nat → (Nat → Bool) → Nat → Bool
  | 0, marks => marks
  | i + 1, marks =>
      neededIndices coefficients i
        (if isPowerOfTwo (i + 1) then
          Function.update marks i true
        else if coefficients.getD (i + 1) 0 ≠ 0 then
          markIndices marks (i + 1)
        else
          marks)

/-- A power of two is a square and a needed composite index is one product. -/
def linearPowers (indices : Nat → Bool) (x : K) (k : Nat) : Nat → Option (List (Option K))
  | 0 => firstPowers x k
  | 1 => firstPowers x k
  | n + 2 => do
      let powers ← linearPowers indices x k (n + 1)
      let i := n + 2
      if isPowerOfTwo i then
        let base ← readPower powers (i / 2 - 1)
        some (powers.set (i - 1) (some (base * base)))
      else if indices (i - 1) then
        let p := 2 ^ (msbOf i - 1) - 1
        let r := (i &&& p) - 1
        let high ← readPower powers p
        let low ← readPower powers r
        some (powers.set (i - 1) (some (high * low)))
      else
        some powers

def evalPowersLinear (coefficients : List K) (x : K) : Option (SeriesPowers K) := do
  let k := coefficients.length - 1
  let indices := neededIndices coefficients k fun _ => false
  let powers ← linearPowers indices x k k
  some
    { powers := powers
      powers2 := []
      powers2_norescale := []
      power2km1 := none
      k := 0
      m := 0 }

/-- The loop counts the distance from the last power of two. -/
structure PowersLoop (K : Type) where
  powers : List (Option K)
  powerOf2 : Nat
  rem : Nat

/-- The parity test binds as `i & (1 == 0)`, so that the fused form always multiplies. -/
def nextPower (fused : Bool) (i : Nat) (loop : PowersLoop K) : Option K :=
  if loop.rem = 0 then do
    let base ← readPower loop.powers (loop.powerOf2 / 2 - 1)
    some (base * base)
  else if fused then do
    let low ← readPower loop.powers (i / 2 - 1)
    let high ← readPower loop.powers (i / 2 - 1 + i % 2)
    some (low * high)
  else do
    let high ← readPower loop.powers (loop.powerOf2 - 1)
    let low ← readPower loop.powers (loop.rem - 1)
    some (high * low)

def advance (i : Nat) (loop : PowersLoop K) (power : K) : PowersLoop K :=
  let powers := loop.powers.set (i - 1) (some power)
  if loop.rem + 1 = loop.powerOf2 then
    { powers := powers, powerOf2 := 2 * loop.powerOf2, rem := 0 }
  else
    { powers := powers, powerOf2 := loop.powerOf2, rem := loop.rem + 1 }

def densePowers (fused : Bool) (x : K) (k : Nat) : Nat → Option (PowersLoop K)
  | 0 => do
      let powers ← firstPowers x k
      some { powers := powers, powerOf2 := 2, rem := 0 }
  | 1 => do
      let powers ← firstPowers x k
      some { powers := powers, powerOf2 := 2, rem := 0 }
  | n + 2 => do
      let loop ← densePowers fused x k (n + 1)
      let power ← nextPower fused (n + 2) loop
      some (advance (n + 2) loop power)

structure ExtensionPowers (K : Type) where
  powers2 : List (Option K)
  powers2_norescale : List (Option K)
  power2km1 : K

/-- The first square starts from the last power. -/
def extensionBase (powers powers2 : List (Option K)) (i : Nat) : Option K :=
  if i = 1 then powers.getLast?.join else readPower powers2 (i - 1)

/-- The first entry of powers2 stays empty, and only the fused form keeps unrescaled powers. -/
def extensionPowers (fused : Bool) (powers : List (Option K)) (k m : Nat) :
    Nat → Option (ExtensionPowers K)
  | 0 => do
      let last ← readPower powers (k - 1)
      some
        { powers2 := List.replicate m none
          powers2_norescale := List.replicate m none
          power2km1 := last }
  | n + 1 => do
      let extension ← extensionPowers fused powers k m n
      let i := n + 1
      let base ← extensionBase powers extension.powers2 i
      let square := base * base
      some
        { powers2 := extension.powers2.set i (some square)
          powers2_norescale :=
            if fused then extension.powers2_norescale.set i (some square)
            else extension.powers2_norescale
          power2km1 := extension.power2km1 * square }

def evalPowersPS (ComputeDegreesPS : Nat → Nat × Nat) (x : K) (degree : Nat) (fused : Bool) :
    Option (SeriesPowers K) := do
  let degs := ComputeDegreesPS degree
  let k := degs.1
  let m := degs.2
  let loop ← densePowers fused x k k
  let extension ← extensionPowers fused loop.powers k m (m - 1)
  some
    { powers := loop.powers
      powers2 := extension.powers2
      powers2_norescale := extension.powers2_norescale
      power2km1 := some extension.power2km1
      k := k
      m := m }

def evalPowers (ComputeDegreesPS : Nat → Nat × Nat) (x : K) (coefficients : List K)
    (fused : Bool) : Option (SeriesPowers K) := do
  let d ← Chebyshev.Degree coefficients
  if d < 5 then evalPowersLinear coefficients x else evalPowersPS ComputeDegreesPS x d fused

end

end Fideslib.PowerBasis

namespace Fideslib.PowerBasis

open Fideslib.Chebyshev (Degree LongDiv PSLevels PSRecordFused PSRun PS_MODE TerminalSum WSum
  emptyRun evalMultiplePartialLinearWSumWithBias evalPartialLinearWSumWithBias raisedCoefficients resize
  setBack subtractPower targetLevel)

section

variable {K : Type} [Field K] [DecidableEq K]

def weightedPower (ctxs : List (Option K)) (weights : List K) (index : Nat) : Option K := do
  let power ← readPower ctxs index
  let weight ← weights[index + 1]?
  some (power * weight)

/-- The output is empty until the first term is written. -/
def accumulatePowers (ctxs : List (Option K)) (weights : List K) : Nat → Option K
  | 0 => none
  | 1 => weightedPower ctxs weights 0
  | n + 2 => do
      let out ← accumulatePowers ctxs weights (n + 1)
      let term ← weightedPower ctxs weights (n + 1)
      some (out + term)

/-- The manual technique writes the first term before its loop. -/
def evalPartialLinearWSum (fixedManual : Bool) (ctxs : List (Option K)) (weights : List K)
    (limit : Nat) : Option K :=
  accumulatePowers ctxs weights (if fixedManual then max limit 1 else limit)

/-- A short factor is the last power, its constant and the terms between them. -/
def shortFactor (fixedManual : Bool) (powers : List (Option K)) (k : Nat) (coefficients : List K) :
    Option K := do
  let last ← readPower powers (k - 1)
  let front ← coefficients.head?
  let resized := resize coefficients k
  let n ← Degree resized
  if 0 < n then
    let terms ← evalPartialLinearWSum fixedManual powers resized n
    some (last + front + terms)
  else
    some (last + front)

def polyFactor (fixedManual : Bool) (recurse : List K → Option K) (powers : List (Option K))
    (k : Nat) (coefficients : List K) : Option K := do
  let degree ← Degree coefficients
  if k < degree then recurse coefficients else shortFactor fixedManual powers k coefficients

/-- A linear quotient with leading coefficient one is not multiplied. -/
def polyHead (fixedManual : Bool) (powers powers2 : List (Option K)) (m : Nat) (c : List K) :
    Option K := do
  let n ← Degree c
  let doubled ← readPower powers2 (m - 1)
  let front ← c.head?
  if n = 0 then
    some (doubled + front)
  else if n = 1 then
    let first ← readPower powers 0
    let slope ← (c)[1]?
    if slope ≠ 1 then
      some (first * slope + doubled + front)
    else
      some (doubled + first + front)
  else
    let terms ← evalPartialLinearWSum fixedManual powers c n
    some (doubled + terms + front)

def innerEvalPolyPS (fixedManual : Bool) (LongDivisionPoly : List K → List K → LongDiv K)
    (powers powers2 : List (Option K)) (k : Nat) : Nat → List K → Option K
  | 0, _ => none
  | m + 1, coefficients => do
      let k2m2k := k * 2 ^ m - k
      let xkm := setBack (List.replicate (k2m2k + k + 1) 0) 1
      let divqr := LongDivisionPoly coefficients xkm
      let r2 ← subtractPower k2m2k divqr.r
      let divcs := LongDivisionPoly r2 divqr.q
      let recurse := innerEvalPolyPS fixedManual LongDivisionPoly powers powers2 k m
      let qu ← polyFactor fixedManual recurse powers k divqr.q
      let s2 := setBack (resize divcs.r (k2m2k + 1)) 1
      let su ← polyFactor fixedManual recurse powers k s2
      let cu ← polyHead fixedManual powers powers2 (m + 1) divcs.q
      some (cu * qu + su)

/-- Two exceptions guard the short path. -/
def evalPolyLinearWithPrecomp (powers : List (Option K)) (coefficients : List K) : Option K := do
  let k := coefficients.length - 1
  let top ← coefficients[k]?
  if coefficients.length < 2 ∨ top = 0 then
    none
  else
    let last ← readPower powers (k - 1)
    let sum ← (List.range (k - 1)).foldlM (fun result index =>
      if coefficients.getD (index + 1) 0 ≠ 0 then do
        let power ← readPower powers index
        some (result + power * coefficients.getD (index + 1) 0)
      else
        some result) (last * top)
    some (sum + coefficients.getD 0 0)

def evalPolyPSWithPrecomp (fixedManual : Bool) (LongDivisionPoly : List K → List K → LongDiv K)
    (sp : SeriesPowers K) (coefficients : List K) : Option K := do
  let f2 ← raisedCoefficients sp.k sp.m coefficients
  let value ← innerEvalPolyPS fixedManual LongDivisionPoly sp.powers sp.powers2 sp.k sp.m f2
  let power2km1 ← sp.power2km1
  some (value - power2km1)

/-- These arguments stay the same through the whole fused recursion. -/
structure FusedArguments (K : Type) where
  LongDivisionPoly : List K → List K → LongDiv K
  k : Nat
  powers : List K
  powers2 : List (Option K)
  powers2_norescale : List (Option K)
  levels : PSLevels

/-- The bias of a fused sum is its whole first weight. -/
def fusedSum (ctxs : List K) (mode : PS_MODE) (weights : List K) (limit : Nat)
    (target_level : Int) (run : PSRun K) : Option (Option (WSum K) × PSRun K) :=
  let visited := run.visited ++ [{ constants := weights, target_level := target_level }]
  match mode with
  | .RECORD =>
      some (none,
        { record :=
            { run.record with
              constants := run.record.constants ++ [weights]
              target_level := run.record.target_level ++ [target_level] }
          visited := visited })
  | .REMAINING => do
      let sum ← run.record.rev_result_ciphertexts.getLast?
      some (some sum,
        { record :=
            { run.record with
              rev_result_ciphertexts := run.record.rev_result_ciphertexts.dropLast }
          visited := visited })
  | .FULL => do
      let front ← weights.head?
      let sum ← evalPartialLinearWSumWithBias ctxs weights front limit target_level
      some (some sum, { run with visited := visited })

/-- The last power joins a short factor as one more weight. -/
def fusedFactor (args : FusedArguments K) (mode : PS_MODE)
    (recurse : List K → Int → K → PSRun K → Option (K × PSRun K)) (m : Nat)
    (coefficients : List K) (level_offset : Int) (run : PSRun K) :
    Option (Option K × PSRun K) := do
  let degree ← Degree coefficients
  if args.k < degree then
    let (value, after) ← recurse coefficients level_offset 0 run
    some (some value, after)
  else
    let v := (resize coefficients (args.k + 1)).set args.k 1
    let (sum, after) ← fusedSum args.powers mode v args.k
      (targetLevel args.levels m level_offset) run
    some (sum.map WSum.value, after)

/-- A constant quotient is added in every mode. -/
def fusedHead (args : FusedArguments K) (mode : PS_MODE) (m : Nat) (c : List K)
    (level_offset : Int) (out : K) (run : PSRun K) : Option (K × PSRun K) := do
  let n ← Degree c
  if n = 0 then
    let doubled ← readPower args.powers2 (m - 1)
    let front ← c.head?
    some (doubled + front, run)
  else
    let (sum, after) ← fusedSum args.powers mode c n (targetLevel args.levels m level_offset) run
    match sum with
    | none => some (out, after)
    | some cu =>
        if cu.level = args.levels.T2_norescale_level (m - 1) then
          let doubled ← readPower args.powers2_norescale (m - 1)
          some (cu.value + doubled, after)
        else
          let doubled ← readPower args.powers2 (m - 1)
          some (cu.value + doubled, after)

def innerEvalPolyPSFused (args : FusedArguments K) (mode : PS_MODE) :
    Nat → List K → Int → K → PSRun K → Option (K × PSRun K)
  | 0, _, _, _, _ => none
  | m + 1, coefficients, level_offset, out, run => do
      let k2m2k := args.k * 2 ^ m - args.k
      let xkm := setBack (List.replicate (k2m2k + args.k + 1) 0) 1
      let divqr := args.LongDivisionPoly coefficients xkm
      let r2 ← subtractPower k2m2k divqr.r
      let divcs := args.LongDivisionPoly r2 divqr.q
      let (qu, afterQ) ← fusedFactor args mode (innerEvalPolyPSFused args mode m) (m + 1)
        divqr.q level_offset run
      let s2 := setBack (resize divcs.r (k2m2k + 1)) 1
      let (su, afterS) ← fusedFactor args mode (innerEvalPolyPSFused args mode m) (m + 1)
        s2 (level_offset + 1) afterQ
      let (cu, afterC) ← fusedHead args mode (m + 1) divcs.q level_offset out afterS
      if mode = .RECORD then
        some (cu, afterC)
      else
        let qu ← qu
        let su ← su
        some (cu * qu + su, afterC)

/-- Every power has to exist before the sums are fused. -/
def fusedArguments (LongDivisionPoly : List K → List K → LongDiv K) (levels : PSLevels)
    (sp : SeriesPowers K) : Option (FusedArguments K) := do
  let powers ← sp.powers.mapM id
  some
    { LongDivisionPoly := LongDivisionPoly
      k := sp.k
      powers := powers
      powers2 := sp.powers2
      powers2_norescale := sp.powers2_norescale
      levels := levels }

/-- The recursion records its sums, the batch evaluates them and the recursion replays them. -/
def evalPolyPSWithPrecompFused (LongDivisionPoly : List K → List K → LongDiv K)
    (levels : PSLevels) (sp : SeriesPowers K) (coefficients : List K) : Option K := do
  let args ← fusedArguments LongDivisionPoly levels sp
  let f2 ← raisedCoefficients sp.k sp.m coefficients
  let (out, recorded) ← innerEvalPolyPSFused args .RECORD sp.m f2 0 0 (emptyRun K)
  let ws ← evalMultiplePartialLinearWSumWithBias args.powers recorded.record.constants
    recorded.record.target_level
  let (value, _) ← innerEvalPolyPSFused args .REMAINING sp.m f2 0 out
    { record := { recorded.record with rev_result_ciphertexts := ws.reverse }
      visited := [] }
  let power2km1 ← sp.power2km1
  some (value - power2km1)

def evalPolyWithPrecomp (fixedManual : Bool) (LongDivisionPoly : List K → List K → LongDiv K)
    (levels : PSLevels) (sp : SeriesPowers K) (coefficients : List K) (fused : Bool) :
    Option K := do
  let d ← Degree coefficients
  if d < 5 then
    evalPolyLinearWithPrecomp sp.powers coefficients
  else if fused then
    evalPolyPSWithPrecompFused LongDivisionPoly levels sp coefficients
  else
    evalPolyPSWithPrecomp fixedManual LongDivisionPoly sp coefficients

end

end Fideslib.PowerBasis
