/-
This file proves when the batched weighted sums are the sums of their terms.
-/

import Fideslib.KeySwitch.ModDownContract
import Fideslib.KeySwitch.WeightedSumLaw

namespace Fideslib.KeySwitch

open Fideslib.Modular
open Constants (SetupConstants)

namespace Encoding

variable {raw : RawParams} {R : Type} (enc : Encoding raw R) (ctxs : List Ciphertext) (level : Nat)

section Real

def weightedTerm (weight : R) (isC1 : Bool) (y idx i : Nat) : ZMod (raw.prime y) :=
  if enc.IsNotEqualZero weight then
    (enc.ElemForEvalMult level weight (inputLevel ctxs i)).getD y 0 * inputWord ctxs isC1 i y idx
  else 0

def biasValue (bias : R) (y : Nat) : ZMod (raw.prime y) :=
  let value := (enc.ElemForEvalAddOrSub level (enc.abs bias)).getD y 0
  if enc.IsNotEqualZero bias then if enc.negative bias then -value else value else 0

/-- A row of weights starts with the bias, which the second component does not have. -/
def weightedSum (row : List R) (isC1 : Bool) (y idx : Nat) : ZMod (raw.prime y) :=
  ∑ i ∈ Finset.range ctxs.length,
      enc.weightedTerm ctxs level (row.getD (i + 1) enc.zero) isC1 y idx i +
    if isC1 then 0 else enc.biasValue level (row.getD 0 enc.zero) y

end Real

section Complex

/-- A complex weight multiplies by the transform of its constant. -/
def weightedTermComplex (weight : R × R) (isC1 : Bool) (y idx i : Nat) : ZMod (raw.prime y) :=
  if enc.IsNotEqualZeroComplex weight then
    (SetupConstants raw).NTT y (constantLimb raw
      ((enc.ElemForEvalMult level weight.1 (inputLevel ctxs i)).getD y 0)
      ((enc.ElemForEvalMult level weight.2 (inputLevel ctxs i)).getD y 0)) idx *
        inputWord ctxs isC1 i y idx
  else 0

/-- A part that is not positive is encoded by its negated magnitude. -/
def signedPart (part : R) (y : Nat) : Nat :=
  let value := (enc.ElemForEvalAddOrSub level (enc.abs part)).getD y 0
  if enc.positive part then value else raw.prime y - value

def biasValueComplex (bias : R × R) (y idx : Nat) : ZMod (raw.prime y) :=
  if enc.IsNotEqualZeroComplex bias then
    (SetupConstants raw).NTT y
      (constantLimb raw (enc.signedPart level bias.1 y) (enc.signedPart level bias.2 y)) idx
  else 0

def weightedSumComplex (row : List (R × R)) (isC1 : Bool) (y idx : Nat) : ZMod (raw.prime y) :=
  ∑ i ∈ Finset.range ctxs.length,
      enc.weightedTermComplex ctxs level (row.getD (i + 1) (enc.zero, enc.zero)) isC1 y idx i +
    if isC1 then 0 else enc.biasValueComplex level (row.getD 0 (enc.zero, enc.zero)) y idx

end Complex

end Encoding

/-- The words of the polynomial are the canonical words of the value at its level. -/
structure RNSPoly.Holds (raw : RawParams) (poly : RNSPoly) (target : Nat)
    (value : (y : Nat) → Nat → ZMod (raw.prime y)) : Prop where
  level : poly.level = target
  canonical : ∀ y, y ≤ target → ∀ idx, idx < raw.N → poly.limb y idx < raw.prime y
  residue : ∀ y, y ≤ target → ∀ idx, idx < raw.N →
    (poly.limb y idx : ZMod (raw.prime y)) = value y idx

/-- The call has an input for each weight, and the inputs reach the levels of the outputs. -/
structure Admissible (raw : RawParams) {S : Type} (ctxs : List Ciphertext) (weights : List (List S))
    (target_level : List Nat) : Prop where
  inputs : ctxs ≠ []
  lengths : weights.length = target_level.length
  columns : ∀ row ∈ weights, row.length ≤ ctxs.length + 1
  chain : ∀ level ∈ target_level, level < raw.L
  canonical : ∀ ctxt ∈ ctxs, ctxt.Canonical raw
  reach : ∀ ctxt ∈ ctxs, ∀ level ∈ target_level, level ≤ ctxt.c0.level
  -- The scale between two levels is read at the level below the target.
  scaled : ∀ ctxt ∈ ctxs, ∀ level ∈ target_level, ctxt.c0.level ≠ level → 0 < level

/-- A call returns each output, made by one group, with the sum of its terms. -/
def WeightedSumContract (raw : RawParams) {S : Type} (groups : Option (List (List (Objective S))))
    (run : (Nat → Ciphertext) → (Ciphertext → Ciphertext) → Bool → Option (List Ciphertext))
    (sum : Nat → List S → Bool → (y : Nat) → Nat → ZMod (raw.prime y))
    (weights : List (List S)) (target_level : List Nat) : Prop :=
  ∀ emplaced rescaleInternal rescale, ∃ (taken : List (List (Objective S)))
      (sums : List Ciphertext), groups = some taken ∧
    (taken.flatten.map Objective.ctxt).Perm (List.range weights.length) ∧
    (∀ group ∈ taken, 0 < group.length ∧ group.length ≤ MAX_OUTPUTS) ∧
    run emplaced rescaleInternal rescale =
      some (if rescale then sums.map rescaleInternal else sums) ∧
    sums.length = weights.length ∧ ∀ (i : Nat) (ctxt : Ciphertext), sums[i]? = some ctxt →
      ctxt.c0.Holds raw (target_level.getD i 0)
          (sum (target_level.getD i 0) (weights.getD i []) false) ∧
        ctxt.c1.Holds raw (target_level.getD i 0)
          (sum (target_level.getD i 0) (weights.getD i []) true)

section Rows

variable {S : Type}

theorem start_le_foldl_max (values : List Nat) (start : Nat) : start ≤ values.foldl max start := by
  induction values generalizing start with
  | nil => exact le_rfl
  | cons first values inductionHypothesis =>
      exact (Nat.le_max_left start first).trans (inductionHypothesis _)

theorem le_foldl_max {values : List Nat} {start value : Nat} (mem : value ∈ values) :
    value ≤ values.foldl max start := by
  induction values generalizing start with
  | nil => exact absurd mem List.not_mem_nil
  | cons first values inductionHypothesis =>
      rcases List.mem_cons.mp mem with rfl | later
      · exact (Nat.le_max_right start value).trans (start_le_foldl_max values _)
      · exact inductionHypothesis later

theorem foldl_max_le {values : List Nat} {start bound : Nat} (first : start ≤ bound)
    (each : ∀ value ∈ values, value ≤ bound) : values.foldl max start ≤ bound := by
  induction values generalizing start with
  | nil => exact first
  | cons value values inductionHypothesis =>
      rw [List.foldl_cons]
      exact inductionHypothesis (Nat.max_le.mpr ⟨first, each value List.mem_cons_self⟩)
        fun other mem => each other (List.mem_cons_of_mem _ mem)

theorem n_le_max {group : List (Objective S)} {objective : Objective S} (mem : objective ∈ group) :
    objective.n ≤ max_n group :=
  le_foldl_max (List.mem_map_of_mem mem)

theorem level_lt_limbsize {group : List (Objective S)} {objective : Objective S}
    (mem : objective ∈ group) : objective.target_level < limbsize group :=
  le_foldl_max (List.mem_map.mpr ⟨objective, mem, rfl⟩)

/-- The trimmed row reads like the row up to weights that are skipped. -/
theorem rdropWhile_getD {weights : List S} {skip : S → Bool} {zero : S} (skipped : skip zero = true)
    (i : Nat) : (weights.rdropWhile skip).getD i zero = weights.getD i zero ∨
      (skip ((weights.rdropWhile skip).getD i zero) = true ∧ skip (weights.getD i zero) = true) := by
  have whole : weights.rdropWhile skip ++ weights.rtakeWhile skip = weights :=
    List.rdropWhile_append_rtakeWhile
  have read : weights.getD i zero =
      (weights.rdropWhile skip ++ weights.rtakeWhile skip).getD i zero := by rw [whole]
  rw [read]
  rcases Nat.lt_or_ge i (weights.rdropWhile skip).length with inside | beyond
  · left
    rw [List.getD_eq_getElem?_getD, List.getD_eq_getElem?_getD, List.getElem?_append_left inside]
  · right
    rw [List.getD_eq_getElem?_getD, List.getElem?_eq_none beyond, List.getD_eq_getElem?_getD,
      List.getElem?_append_right beyond]
    refine ⟨skipped, ?_⟩
    cases found : (weights.rtakeWhile skip)[i - (weights.rdropWhile skip).length]? with
    | none => exact skipped
    | some weight => exact List.mem_rtakeWhile_imp (List.mem_of_getElem? found)

end Rows

section Terms

variable {raw : RawParams} (generated : raw.Generated) {R : Type} (enc : Encoding raw R)
  (ctxs : List Ciphertext) {level : Nat}

/-- The trimmed weights of a row have the terms of the row. -/
theorem trim_getD {row kept : List R} (trimmed : enc.trim row = some kept) (i : Nat) :
    kept.getD i enc.zero = row.getD i enc.zero ∨
      (enc.IsNotEqualZero (kept.getD i enc.zero) = false ∧
        enc.IsNotEqualZero (row.getD i enc.zero) = false) := by
  simp only [Encoding.trim] at trimmed
  split_ifs at trimmed
  cases trimmed
  have skipped : (!enc.IsNotEqualZero enc.zero) = true := by rw [enc.zero_skipped]; rfl
  simpa only [Bool.not_eq_true'] using
    @rdropWhile_getD R row (fun weight => !enc.IsNotEqualZero weight) enc.zero skipped i

theorem trimComplex_getD {row kept : List (R × R)} (trimmed : enc.trimComplex row = some kept)
    (i : Nat) : kept.getD i (enc.zero, enc.zero) = row.getD i (enc.zero, enc.zero) ∨
      (enc.IsNotEqualZeroComplex (kept.getD i (enc.zero, enc.zero)) = false ∧
        enc.IsNotEqualZeroComplex (row.getD i (enc.zero, enc.zero)) = false) := by
  have skipped : (!enc.IsNotEqualZeroComplex (enc.zero, enc.zero)) = true := by
    rw [enc.zeros_skipped]
    rfl
  have reads := @rdropWhile_getD (R × R) row (fun weight => !enc.IsNotEqualZeroComplex weight)
    (enc.zero, enc.zero) skipped i
  simp only [Encoding.trimComplex] at trimmed
  cases trimmed
  split_ifs with empty
  · have none_ := List.isEmpty_iff.mp empty
    have padding : [(enc.zero, enc.zero)].getD i (enc.zero, enc.zero) = (enc.zero, enc.zero) := by
      cases i <;> rfl
    rw [none_, List.getD_nil] at reads
    rw [padding]
    simpa only [Bool.not_eq_true'] using reads
  · simpa only [Bool.not_eq_true'] using reads

/-- The trimmed row is not longer than the row. -/
theorem trim_length {row kept : List R} (trimmed : enc.trim row = some kept) :
    kept.length ≤ row.length := by
  simp only [Encoding.trim] at trimmed
  split_ifs at trimmed
  cases trimmed
  exact (List.rdropWhile_prefix _ _).length_le

theorem trimComplex_length {row kept : List (R × R)} (trimmed : enc.trimComplex row = some kept) :
    kept.length - 1 ≤ row.length - 1 := by
  simp only [Encoding.trimComplex] at trimmed
  cases trimmed
  have short : (row.rdropWhile fun weight => !enc.IsNotEqualZeroComplex weight).length ≤ row.length :=
    (List.rdropWhile_prefix _ _).length_le
  split_ifs
  · exact Nat.zero_le _
  · omega

/-- A row of real weights is trimmed exactly where it has a weight that is not zero. -/
theorem trim_isSome (row : List R) :
    (enc.trim row).isSome ↔ ∃ weight ∈ row, enc.IsNotEqualZero weight = true := by
  simp only [Encoding.trim]
  split_ifs with empty
  · have zeros := List.rdropWhile_eq_nil_iff.mp (List.isEmpty_iff.mp empty)
    simpa using zeros
  · have some_ := mt List.isEmpty_iff.mpr empty
    rw [List.rdropWhile_eq_nil_iff] at some_
    simpa using some_

/-- A negated word belongs to the encoded word of its limb. -/
theorem negated_word (target : Nat) (bias : R) {y : Nat} (inside : y ≤ target) :
    ((enc.ElemForEvalAddOrSub target bias).mapIdx fun i word => raw.prime i - word).getD y 0 =
      raw.prime y - (enc.ElemForEvalAddOrSub target bias).getD y 0 := by
  have length := enc.add_length target bias
  rw [List.getD_eq_getElem?_getD, List.getD_eq_getElem?_getD, List.getElem?_mapIdx,
    List.getElem?_eq_getElem (by omega)]
  rfl

section Real

variable (objective : Objective R) (isC1 : Bool) (y idx : Nat)

theorem realTerm_eq (i : Nat) : realTerm enc ctxs objective isC1 y idx i =
    enc.weightedTerm ctxs objective.target_level (objective.weights.getD (i + 1) enc.zero) isC1 y
      idx i := by
  have read : objective.weights.getD (i + 1) enc.zero =
      objective.weights[i + 1]?.getD enc.zero := List.getD_eq_getElem?_getD
  rw [realTerm, Encoding.termRow, Encoding.weightedTerm, read]
  cases objective.weights[i + 1]? with
  | none => simp [enc.zero_skipped]
  | some weight =>
      simp only [Option.getD_some, Nat.add_sub_cancel]
      split_ifs
      · rfl
      · simp

theorem biasRow_eq (regular : y < raw.L) (inside : y ≤ objective.target_level) :
    ((enc.biasRow objective).getD y 0 : ZMod (raw.prime y)) =
      enc.biasValue objective.target_level (objective.weights.getD 0 enc.zero) y := by
  simp only [Encoding.biasRow, Encoding.biasValue]
  split_ifs
  · rw [negated_word enc _ _ inside, Nat.cast_sub (encoded_le enc _ _ regular),
      ZMod.natCast_self, zero_sub]
  · rfl
  · simp

end Real

section Complex

variable (objective : Objective (R × R)) (isC1 : Bool) (y idx : Nat)

include generated

/-- A constant of zeros has no words. -/
theorem constant_zero {y : Nat} (regular : y < raw.L) {idx : Nat} (bound : idx < raw.N) :
    ((SetupConstants raw).NTT y (constantLimb raw 0 0) idx : ZMod (raw.prime y)) = 0 := by
  rw [constant_NTT generated (by omega) 0 0 bound]
  simp

theorem complexTerm_eq (regular : y < raw.L) (bound : idx < raw.N) (i : Nat) :
    complexTerm enc ctxs objective isC1 y idx i =
      enc.weightedTermComplex ctxs objective.target_level
        (objective.weights.getD (i + 1) (enc.zero, enc.zero)) isC1 y idx i := by
  have none_ := constant_zero generated regular bound
  have read : objective.weights.getD (i + 1) (enc.zero, enc.zero) =
      objective.weights[i + 1]?.getD (enc.zero, enc.zero) := List.getD_eq_getElem?_getD
  rw [complexTerm, Encoding.termRows, Encoding.weightedTermComplex, read]
  cases objective.weights[i + 1]? with
  | none => simp [enc.zeros_skipped, none_]
  | some weight =>
      simp only [Option.getD_some, Nat.add_sub_cancel]
      split_ifs
      · rfl
      · simp [none_]

omit generated in
theorem signedRow_eq (target : Nat) (part : R) {y : Nat} (inside : y ≤ target) :
    (enc.signedRow target part).getD y 0 = enc.signedPart target part y := by
  simp only [Encoding.signedRow, Encoding.signedPart]
  split_ifs
  · rfl
  · exact negated_word enc _ _ inside

theorem biasRows_eq (regular : y < raw.L) (inside : y ≤ objective.target_level)
    (bound : idx < raw.N) :
    ((SetupConstants raw).NTT y (constantLimb raw ((enc.biasRows objective).1.getD y 0)
        ((enc.biasRows objective).2.getD y 0)) idx : ZMod (raw.prime y)) =
      enc.biasValueComplex objective.target_level
        (objective.weights.getD 0 (enc.zero, enc.zero)) y idx := by
  have none_ := constant_zero generated regular bound
  simp only [Encoding.biasRows, Encoding.biasValueComplex]
  split_ifs
  · rw [signedRow_eq enc _ _ inside, signedRow_eq enc _ _ inside]
  · simpa using none_

end Complex

end Terms

section Calls

variable {raw : RawParams} (generated : raw.Generated) {ctxs : List Ciphertext} {S : Type}
  {weights : List (List S)} {target_level : List Nat}

/-- A launch over all limbs of an output leaves its words. -/
theorem written_holds {poly : RNSPoly} {limbsize target : Nat} {value : Nat → Limb}
    {sum : (y : Nat) → Nat → ZMod (raw.prime y)} (level : poly.level = target)
    (room : target < limbsize) (words : ∀ y, y ≤ target → ∀ idx, idx < raw.N →
      value y idx < raw.prime y ∧ (value y idx : ZMod (raw.prime y)) = sum y idx) :
    (poly.written (SetupConstants raw) limbsize value).Holds raw target sum := by
  have read : ∀ y, y ≤ target → ∀ idx, idx < raw.N →
      (poly.written (SetupConstants raw) limbsize value).limb y idx = value y idx := by
    intro y inside idx bound
    have limb := @onLimbs_inside (min limbsize (poly.level + 1)) y
      (fun y => launch (threads (SetupConstants raw)) (value y) (poly.limb y)) poly.limb (by omega)
    have word := congrFun limb idx
    rw [threads_eq, launch_inside _ _ bound] at word
    rw [← word, ← threads_eq]
    rfl
  exact
    { level := level
      canonical := by
        intro y inside idx bound
        rw [read y inside idx bound]
        exact (words y inside idx bound).1
      residue := by
        intro y inside idx bound
        rw [read y inside idx bound]
        exact (words y inside idx bound).2 }

/-- The terms beyond the last weight are zero, so the number of inputs does not matter. -/
theorem sum_range_of_zeros {M : Type} [AddCommMonoid M] {term : Nat → M} {n first second : Nat}
    (zeros : ∀ i, n ≤ i → term i = 0) (left : n ≤ first) (right : n ≤ second) :
    ∑ i ∈ Finset.range first, term i = ∑ i ∈ Finset.range second, term i := by
  rw [Finset.eventually_constant_sum zeros left, Finset.eventually_constant_sum zeros right]

namespace Admissible

variable (admissible : Admissible raw ctxs weights target_level)

include admissible

omit admissible in
theorem row_mem {i : Nat} (inside : i < weights.length) : weights.getD i [] ∈ weights := by
  rw [List.getD_eq_getElem?_getD, List.getElem?_eq_getElem inside]
  exact List.getElem_mem inside

/-- The words that the kernels read are canonical. -/
theorem inputWord_lt {i y idx level : Nat} (isC1 : Bool) (inside : i < ctxs.length)
    (target : level ∈ target_level) (below : y ≤ level) (bound : idx < raw.N) :
    inputWord ctxs isC1 i y idx < raw.prime y := by
  have mem : ctxs.get ⟨i, inside⟩ ∈ ctxs := List.get_mem _ _
  have canonical := admissible.canonical _ mem
  have reach := admissible.reach _ mem level target
  have chain := admissible.chain level target
  have read : ctxs[i]? = some (ctxs.get ⟨i, inside⟩) := List.getElem?_eq_getElem inside
  rw [inputWord, read, raw.prime_q (by omega)]
  cases isC1 with
  | true =>
      exact canonical.c1.limb y (by rw [canonical.level]; omega) idx bound
  | false => exact canonical.c0.limb y (by omega) idx bound

end Admissible

/-- The facts of a group whose objectives are planned. -/
structure GroupFits (raw : RawParams) (ctxs : List Ciphertext) (target_level : List Nat)
    (group : List (Objective S)) : Prop where
  target : ∀ objective ∈ group, objective.target_level ∈ target_level
  short : ∀ objective ∈ group, objective.n ≤ ctxs.length

theorem GroupFits.regular {group : List (Objective S)}
    (fits : GroupFits raw ctxs target_level group)
    (admissible : Admissible raw ctxs weights target_level) (generated : raw.Generated) :
    Regular group := by
  intro objective mem
  have chain := admissible.chain _ (fits.target objective mem)
  have room := generated.tables
  rw [MAXP]
  omega

theorem GroupFits.max_n_le {group : List (Objective S)}
    (fits : GroupFits raw ctxs target_level group) : max_n group ≤ ctxs.length := by
  apply foldl_max_le (Nat.zero_le _)
  intro value mem
  obtain ⟨objective, member, rfl⟩ := List.mem_map.mp mem
  exact fits.short objective member

end Calls

section Values

variable {raw : RawParams} (generated : raw.Generated) {R : Type} (enc : Encoding raw R)
  {ctxs : List Ciphertext} {target_level : List Nat}

section Real

variable {weights : List (List R)} (admissible : Admissible raw ctxs weights target_level)

/-- Skipped weights give the same term. -/
theorem weightedTerm_congr {target : Nat} {first second : R} (same : first = second ∨
    (enc.IsNotEqualZero first = false ∧ enc.IsNotEqualZero second = false)) (isC1 : Bool)
    (y idx i : Nat) : enc.weightedTerm ctxs target first isC1 y idx i =
      enc.weightedTerm ctxs target second isC1 y idx i := by
  rcases same with rfl | ⟨left, right⟩
  · rfl
  · simp [Encoding.weightedTerm, left, right]

theorem biasValue_congr {target : Nat} {first second : R} (same : first = second ∨
    (enc.IsNotEqualZero first = false ∧ enc.IsNotEqualZero second = false)) (y : Nat) :
    enc.biasValue target first y = enc.biasValue target second y := by
  rcases same with rfl | ⟨left, right⟩
  · rfl
  · simp [Encoding.biasValue, left, right]

include generated admissible

/-- The launch for a group leaves the sums of its objectives. -/
theorem real_holds {group : List (Objective R)} (fits : GroupFits raw ctxs target_level group)
    {j : Nat} {objective : Objective R} (place : group[j]? = some objective) {row : List R}
    (trimmed : enc.trim row = some objective.weights)
    (count : objective.n = objective.weights.length - 1) (isC1 : Bool) {poly : RNSPoly}
    (level : poly.level = objective.target_level) :
    (poly.written (SetupConstants raw) (limbsize group) fun y idx =>
      eval_batched_linear_w_sum_with_bias_ (SetupConstants raw) (max_n group) (inputWord ctxs isC1)
        (bufferWord (enc.elem ctxs group)) isC1 j y idx).Holds raw objective.target_level
      (enc.weightedSum ctxs objective.target_level row isC1) := by
  have mem := List.mem_of_getElem? place
  apply written_holds level (level_lt_limbsize mem)
  intro y inside idx bound
  have chain := admissible.chain _ (fits.target objective mem)
  have canonical : ∀ i, i < max_n group → inputWord ctxs isC1 i y idx < raw.prime y := by
    intro i below
    exact admissible.inputWord_lt isC1 (below.trans_le fits.max_n_le) (fits.target objective mem)
      inside bound
  obtain ⟨small, value⟩ := real_kernel generated enc ctxs (fits.regular admissible generated) place
    (show y < raw.L by omega) isC1 canonical
  refine ⟨small, value.trans ?_⟩
  have zeros : ∀ i, objective.n ≤ i → realTerm enc ctxs objective isC1 y idx i = 0 := by
    intro i beyond
    rw [realTerm_eq, List.getD_eq_getElem?_getD, List.getElem?_eq_none (by omega), Option.getD_none]
    simp [Encoding.weightedTerm, enc.zero_skipped]
  rw [sum_range_of_zeros zeros (n_le_max mem) (fits.short objective mem), Encoding.weightedSum,
    biasRow_eq enc objective y (by omega) inside]
  congr 1
  · apply Finset.sum_congr rfl
    intro i _
    rw [realTerm_eq]
    exact weightedTerm_congr enc (trim_getD enc trimmed (i + 1)) isC1 y idx i
  · rw [biasValue_congr enc (trim_getD enc trimmed 0) y]

end Real

section Complex

variable {weights : List (List (R × R))} (admissible : Admissible raw ctxs weights target_level)

theorem weightedTermComplex_congr {target : Nat} {first second : R × R} (same : first = second ∨
    (enc.IsNotEqualZeroComplex first = false ∧ enc.IsNotEqualZeroComplex second = false))
    (isC1 : Bool) (y idx i : Nat) : enc.weightedTermComplex ctxs target first isC1 y idx i =
      enc.weightedTermComplex ctxs target second isC1 y idx i := by
  rcases same with rfl | ⟨left, right⟩
  · rfl
  · simp [Encoding.weightedTermComplex, left, right]

theorem biasValueComplex_congr {target : Nat} {first second : R × R} (same : first = second ∨
    (enc.IsNotEqualZeroComplex first = false ∧ enc.IsNotEqualZeroComplex second = false))
    (y idx : Nat) : enc.biasValueComplex target first y idx =
      enc.biasValueComplex target second y idx := by
  rcases same with rfl | ⟨left, right⟩
  · rfl
  · simp [Encoding.biasValueComplex, left, right]

include generated admissible

theorem complex_holds {group : List (Objective (R × R))}
    (fits : GroupFits raw ctxs target_level group) {j : Nat} {objective : Objective (R × R)}
    (place : group[j]? = some objective) {row : List (R × R)}
    (trimmed : enc.trimComplex row = some objective.weights)
    (count : objective.n = objective.weights.length - 1) (isC1 : Bool) {poly : RNSPoly}
    (level : poly.level = objective.target_level) :
    (poly.written (SetupConstants raw) (limbsize group) fun y idx =>
      eval_batched_linear_w_sum_complex_with_bias_ (SetupConstants raw) (max_n group)
        (inputWord ctxs isC1) (bufferWord (enc.w ctxs group)) isC1 j y idx).Holds raw
      objective.target_level (enc.weightedSumComplex ctxs objective.target_level row isC1) := by
  have mem := List.mem_of_getElem? place
  apply written_holds level (level_lt_limbsize mem)
  intro y inside idx bound
  have chain := admissible.chain _ (fits.target objective mem)
  have regular : y < raw.L := by omega
  have canonical : ∀ i, i < max_n group → inputWord ctxs isC1 i y idx < raw.prime y := by
    intro i below
    exact admissible.inputWord_lt isC1 (below.trans_le fits.max_n_le) (fits.target objective mem)
      inside bound
  obtain ⟨small, value⟩ := complex_kernel generated enc ctxs (fits.regular admissible generated)
    place regular isC1 bound canonical
  refine ⟨small, value.trans ?_⟩
  have zeros : ∀ i, objective.n ≤ i → complexTerm enc ctxs objective isC1 y idx i = 0 := by
    intro i beyond
    rw [complexTerm_eq generated enc ctxs objective isC1 y idx regular bound,
      List.getD_eq_getElem?_getD, List.getElem?_eq_none (by omega), Option.getD_none]
    simp [Encoding.weightedTermComplex, enc.zeros_skipped]
  rw [sum_range_of_zeros zeros (n_le_max mem) (fits.short objective mem),
    Encoding.weightedSumComplex,
    biasRows_eq generated enc objective y idx regular inside bound]
  congr 1
  · apply Finset.sum_congr rfl
    intro i _
    rw [complexTerm_eq generated enc ctxs objective isC1 y idx regular bound]
    exact weightedTermComplex_congr enc (trimComplex_getD enc trimmed (i + 1)) isC1 y idx i
  · rw [biasValueComplex_congr enc (trimComplex_getD enc trimmed 0) y idx]

end Complex

end Values

end Fideslib.KeySwitch
