/-
This file settles which calls of the batched weighted sums meet their contract.
-/

import Fideslib.KeySwitch.WeightedSumContract
import Fideslib.KeySwitch.ModUpContract

namespace Fideslib.KeySwitch

open Scatter
open Constants (SetupConstants)

section Calls

variable {raw : RawParams} {ctxs : List Ciphertext} {S : Type} {trim : List S → Option (List S)}
  {weights : List (List S)} {target_level : List Nat}

/-- A group of planned objectives reads inputs and levels of the call. -/
theorem Planned.fits {taken : List (List (Objective S))}
    (planned : Planned trim weights target_level taken)
    (lengths : weights.length = target_level.length)
    (short : ∀ row ∈ weights, ∀ kept, trim row = some kept → kept.length - 1 ≤ ctxs.length)
    {group : List (Objective S)} (mem : group ∈ taken) :
    GroupFits raw ctxs target_level group := by
  have member : ∀ objective ∈ group, objective ∈ taken.flatten := by
    intro objective inside
    exact List.mem_flatten.mpr ⟨group, mem, inside⟩
  exact
    { target := by
        intro objective inside
        obtain ⟨bound, -, level, -⟩ := planned.row objective (member objective inside)
        have place : objective.ctxt < target_level.length := lengths ▸ bound
        rw [level, List.getD_eq_getElem?_getD, List.getElem?_eq_getElem place]
        exact List.getElem_mem place
      short := by
        intro objective inside
        obtain ⟨bound, trimmed, -, count⟩ := planned.row objective (member objective inside)
        rw [count]
        exact short _ (Admissible.row_mem bound) _ trimmed }

/-- A call whose launches leave the sums of their groups meets its contract. -/
theorem contract_of_values
    {internal : List (Objective S) → List (Nat × (Ciphertext → Ciphertext))}
    {value : List (Objective S) → Nat → Ciphertext → Ciphertext}
    {sum : Nat → List S → Bool → (y : Nat) → Nat → ZMod (raw.prime y)}
    (admissible : Admissible raw ctxs weights target_level)
    (shape : ∀ group, internal group =
      group.zipIdx.map fun (objective, j) => (objective.ctxt, value group j))
    (trims : ∀ row ∈ weights, (trim row).isSome)
    (short : ∀ row ∈ weights, ∀ kept, trim row = some kept → kept.length - 1 ≤ ctxs.length)
    (values : ∀ group, GroupFits raw ctxs target_level group → ∀ j objective,
      group[j]? = some objective → ∀ row, trim row = some objective.weights →
      objective.n = objective.weights.length - 1 → ∀ ctxt : Ciphertext,
      (value group j (ctxt.growToLevel objective.target_level)).c0.Holds raw
          objective.target_level (sum objective.target_level row false) ∧
        (value group j (ctxt.growToLevel objective.target_level)).c1.Holds raw
          objective.target_level (sum objective.target_level row true)) :
    WeightedSumContract raw (outputGroups trim weights target_level)
      (evalGroups internal (outputGroups trim weights target_level) target_level) sum weights
      target_level := by
  intro emplaced rescaleInternal rescale
  obtain ⟨out_ctxt, made⟩ := @objectives_some S trim weights target_level trims
  obtain ⟨taken, groups, planned⟩ := outputGroups_planned made
  let initial : Nat → Ciphertext := fun i => (emplaced i).growToLevel (target_level.getD i 0)
  let result : Nat → Ciphertext :=
    taken.foldl (fun ctxs_result group => modify (internal group) ctxs_result) initial
  refine ⟨taken, (List.range weights.length).map result, groups, planned.once, planned.sizes, ?_,
    ?_, ?_⟩
  · rw [groups, admissible.lengths]
    cases rescale with
    | true =>
        rw [if_pos rfl, List.map_map]
        rfl
    | false => rfl
  · rw [List.length_map, List.length_range]
  · intro i ctxt found
    have inside : i < weights.length := by
      have bound := (List.getElem?_eq_some_iff.mp found).1
      rwa [List.length_map, List.length_range] at bound
    rw [List.getElem?_map, List.getElem?_range inside] at found
    obtain ⟨group, mem, j, objective, place, rfl, written⟩ :=
      evalGroups_result shape planned initial inside
    have output : value group j (initial objective.ctxt) = ctxt :=
      written.symm.trans (Option.some.inj found)
    obtain ⟨-, trimmed, level, count⟩ := planned.row objective
      (List.mem_flatten.mpr ⟨group, mem, List.mem_of_getElem? place⟩)
    have held := values group (planned.fits admissible.lengths short mem) j objective place _
      trimmed count (emplaced objective.ctxt)
    rw [level] at held
    rw [← output]
    exact held

section Kinds

variable {R : Type} (generated : raw.Generated) (enc : Encoding raw R)

/-- A row of zeros of a real call leaves no outputs at all. -/
theorem real_outputGroups_none {weights : List (List R)} {row : List R} (mem : row ∈ weights)
    (zeros : ∀ weight ∈ row, enc.IsNotEqualZero weight ≠ true) :
    outputGroups enc.trim weights target_level = none := by
  obtain ⟨i, inside, rfl⟩ := List.mem_iff_getElem.mp mem
  have stuck : enc.trim (weights.getD i []) = none := by
    rw [List.getD_eq_getElem?_getD, List.getElem?_eq_getElem inside, Option.getD_some,
      ← Option.not_isSome_iff_eq_none, trim_isSome]
    rintro ⟨weight, member, some_⟩
    exact zeros weight member some_
  rw [outputGroups, objectives_none inside stuck]
  rfl

include generated

/-- A real call meets its contract where each row has a weight that is not zero. -/
theorem real_contract_iff {weights : List (List R)}
    (admissible : Admissible raw ctxs weights target_level) :
    WeightedSumContract raw (outputGroups enc.trim weights target_level)
        (enc.evalMultiplePartialLinearWSumWithBias (SetupConstants raw) ctxs weights target_level)
        (enc.weightedSum ctxs) weights target_level ↔
      ∀ row ∈ weights, ∃ weight ∈ row, enc.IsNotEqualZero weight = true := by
  constructor
  · intro contract row mem
    by_contra fails
    have zeros : ∀ weight ∈ row, enc.IsNotEqualZero weight ≠ true := by
      intro weight member some_
      exact fails ⟨weight, member, some_⟩
    have none_ := @real_outputGroups_none raw target_level R enc weights row mem zeros
    obtain ⟨fresh, -⟩ := List.exists_mem_of_ne_nil ctxs admissible.inputs
    obtain ⟨taken, -, groups, -⟩ := contract (fun _ => fresh) id false
    rw [none_] at groups
    cases groups
  · intro some_
    let value : List (Objective R) → Nat → Ciphertext → Ciphertext := fun group j ctxt =>
      ctxt.written (SetupConstants raw) (limbsize group) fun isC1 y idx =>
        eval_batched_linear_w_sum_with_bias_ (SetupConstants raw) (max_n group)
          (inputWord ctxs isC1) (bufferWord (enc.elem ctxs group)) isC1 j y idx
    apply @contract_of_values raw ctxs R enc.trim weights target_level _ value _ admissible
    · intro group
      rfl
    · intro row mem
      exact (trim_isSome enc row).mpr (some_ row mem)
    · intro row mem kept trimmed
      have columns := admissible.columns row mem
      have kept_length := trim_length enc trimmed
      omega
    · intro group fits j objective place row trimmed count ctxt
      exact ⟨real_holds generated enc admissible fits place trimmed count false rfl,
        real_holds generated enc admissible fits place trimmed count true rfl⟩

/-- A complex call meets its contract for all rows. -/
theorem complex_contract {weights : List (List (R × R))}
    (admissible : Admissible raw ctxs weights target_level) :
    WeightedSumContract raw (outputGroups enc.trimComplex weights target_level)
      (enc.evalMultiplePartialLinearWSumWithBiasComplex (SetupConstants raw) ctxs weights
        target_level) (enc.weightedSumComplex ctxs) weights target_level := by
  let value : List (Objective (R × R)) → Nat → Ciphertext → Ciphertext := fun group j ctxt =>
    ctxt.written (SetupConstants raw) (limbsize group) fun isC1 y idx =>
      eval_batched_linear_w_sum_complex_with_bias_ (SetupConstants raw) (max_n group)
        (inputWord ctxs isC1) (bufferWord (enc.w ctxs group)) isC1 j y idx
  apply @contract_of_values raw ctxs (R × R) enc.trimComplex weights target_level _ value _
    admissible
  · intro group
    rfl
  · intro row mem
    rfl
  · intro row mem kept trimmed
    have columns := admissible.columns row mem
    have kept_length := trimComplex_length enc trimmed
    omega
  · intro group fits j objective place row trimmed count ctxt
    exact ⟨complex_holds generated enc admissible fits place trimmed count false rfl,
      complex_holds generated enc admissible fits place trimmed count true rfl⟩

end Kinds

end Calls

/-- A real call meets its contract exactly where no row is zero, and a complex call always does. -/
theorem weightedSums_contract {raw : RawParams} (generated : raw.Generated) {R : Type}
    (enc : Encoding raw R) (ctxs : List Ciphertext) (target_level : List Nat) :
    (∀ weights : List (List R), Admissible raw ctxs weights target_level →
      (WeightedSumContract raw (outputGroups enc.trim weights target_level)
          (enc.evalMultiplePartialLinearWSumWithBias (SetupConstants raw) ctxs weights target_level)
          (enc.weightedSum ctxs) weights target_level ↔
        ∀ row ∈ weights, ∃ weight ∈ row, enc.IsNotEqualZero weight = true)) ∧
    ∀ weights : List (List (R × R)), Admissible raw ctxs weights target_level →
      WeightedSumContract raw (outputGroups enc.trimComplex weights target_level)
        (enc.evalMultiplePartialLinearWSumWithBiasComplex (SetupConstants raw) ctxs weights
          target_level) (enc.weightedSumComplex ctxs) weights target_level := by
  constructor
  · intro weights admissible
    exact real_contract_iff generated enc admissible
  · intro weights admissible
    exact complex_contract generated enc admissible

/-- An integer is encoded at the scale of the context. -/
def smallWords (scale : Int) (level : Nat) (value : Int) : List Nat :=
  (List.range (level + 1)).map fun id => (scale * value % smallParams.prime id).toNat

theorem smallWords_lt (scale : Int) (level : Nat) (value : Int) {id word : Nat}
    (inside : id < smallParams.L) (found : (smallWords scale level value)[id]? = some word) :
    word < smallParams.prime id := by
  have positive : 0 < smallParams.prime id :=
    (smallParams_generated.modulus (show id < smallParams.L + smallParams.K by omega)).pos
  rw [smallWords, List.getElem?_map] at found
  obtain ⟨place, listed, rfl⟩ := Option.map_eq_some_iff.mp found
  obtain ⟨bound, rfl⟩ := List.getElem?_eq_some_iff.mp listed
  rw [List.getElem_range]
  have rest := Int.emod_lt_of_pos (scale * value) (Int.natCast_pos.mpr positive)
  have start := Int.emod_nonneg (scale * value) (Int.natCast_ne_zero.mpr positive.ne')
  omega

/-- The weights of the small context are integers. -/
def smallEncoding : Encoding smallParams Int where
  zero := 0
  abs := fun value => |value|
  negative := fun value => decide (value < 0)
  positive := fun value => decide (0 < value)
  IsNotEqualZero := fun value => decide (value ≠ 0)
  IsNotEqualZeroComplex := fun value => decide (value ≠ (0, 0))
  ElemForEvalMult := fun level w _ => smallWords 16 level w
  ElemForEvalAddOrSub := fun level bias => smallWords 256 level bias
  zero_skipped := rfl
  zeros_skipped := rfl
  mult_length := by
    intro level w level_in
    rw [smallWords, List.length_map, List.length_range]
  add_length := by
    intro level bias
    rw [smallWords, List.length_map, List.length_range]
  mult_lt := by
    intro level w level_in id factor inside found
    exact smallWords_lt 16 level w inside found
  add_lt := by
    intro level bias id word inside found
    exact smallWords_lt 256 level bias inside found

/-- One input takes part in the small calls. -/
def smallInputs : List Ciphertext := [⟨smallPoly 0 false, smallPoly 0 false⟩]

theorem small_admissible {S : Type} {row : List S} (short : row.length ≤ 2) :
    Admissible smallParams smallInputs [row] [0] where
  inputs := List.cons_ne_nil _ _
  lengths := rfl
  columns := by
    intro other mem
    rw [List.mem_singleton.mp mem]
    exact short
  chain := by decide
  canonical := by
    intro ctxt mem
    rw [List.mem_singleton.mp mem]
    exact ⟨rfl, smallPoly_canonical false, smallPoly_canonical false⟩
  reach := by
    intro ctxt mem level target
    rw [List.mem_singleton.mp target]
    exact Nat.zero_le _
  scaled := by
    intro ctxt mem level target differs
    rw [List.mem_singleton.mp mem, List.mem_singleton.mp target] at differs
    exact absurd rfl differs

/-- A real row with a bias and a row of complex zeros meet the contract. -/
theorem weightedSums_contract_small :
    WeightedSumContract smallParams (outputGroups smallEncoding.trim [[-3, 2]] [0])
        (smallEncoding.evalMultiplePartialLinearWSumWithBias (SetupConstants smallParams) smallInputs
          [[-3, 2]] [0]) (smallEncoding.weightedSum smallInputs) [[-3, 2]] [0] ∧
      WeightedSumContract smallParams (outputGroups smallEncoding.trimComplex [[(0, 0)]] [0])
        (smallEncoding.evalMultiplePartialLinearWSumWithBiasComplex (SetupConstants smallParams)
          smallInputs [[(0, 0)]] [0]) (smallEncoding.weightedSumComplex smallInputs) [[(0, 0)]]
        [0] := by
  obtain ⟨real, complex⟩ :=
    weightedSums_contract smallParams_generated smallEncoding smallInputs [0]
  exact ⟨(real [[-3, 2]] (small_admissible (by decide))).mpr (by decide),
    complex [[(0, 0)]] (small_admissible (by decide))⟩

/-- A real row of zeros has no output, though the call is admissible. -/
theorem real_zeros_fail : Admissible smallParams smallInputs [[(0 : Int), 0]] [0] ∧
    ¬ WeightedSumContract smallParams (outputGroups smallEncoding.trim [[0, 0]] [0])
      (smallEncoding.evalMultiplePartialLinearWSumWithBias (SetupConstants smallParams) smallInputs
        [[0, 0]] [0]) (smallEncoding.weightedSum smallInputs) [[0, 0]] [0] := by
  have admissible : Admissible smallParams smallInputs [[(0 : Int), 0]] [0] :=
    small_admissible (by decide)
  refine ⟨admissible, ?_⟩
  rw [real_contract_iff smallParams_generated smallEncoding admissible]
  decide

end Fideslib.KeySwitch
