/-
This file proves that the kernels of the batched weighted sums add their terms one by one.
-/

import Fideslib.KeySwitch.WeightedSum

namespace Fideslib.KeySwitch

open Fideslib.Modular
open PartialLists
open BitReversal
open NegacyclicRing
open Constants (SetupConstants)

theorem padded_length {aux : List Nat} (short : aux.length ≤ MAXP) : (padded aux).length = MAXP := by
  rw [padded, List.length_append, List.length_replicate]
  omega

theorem padded_getD (aux : List Nat) (y : Nat) : (padded aux).getD y 0 = aux.getD y 0 := by
  rw [padded, List.getD_eq_getElem?_getD, List.getD_eq_getElem?_getD, List.getElem?_append]
  split_ifs with inside
  · rfl
  · rw [List.getElem?_replicate, List.getElem?_eq_none (by omega)]
    split_ifs <;> rfl

section Words

variable {p : Nat}

/-- A loop that adds one term in each step leaves the sum of the terms. -/
theorem foldl_adds {step : Nat → Nat → Nat} {term : Nat → ZMod p} {n : Nat} (positive : 0 < p)
    (each : ∀ i, i < n → ∀ res, res < p →
      step res i < p ∧ (step res i : ZMod p) = res + term i) :
    (List.range n).foldl step 0 < p ∧
      (((List.range n).foldl step 0 : Nat) : ZMod p) = ∑ i ∈ Finset.range n, term i := by
  induction n with
  | zero => exact ⟨positive, Nat.cast_zero⟩
  | succ n inductionHypothesis =>
      obtain ⟨small, value⟩ := inductionHypothesis fun i below => each i (by omega)
      obtain ⟨next, sum⟩ := each n (Nat.lt_succ_self n) _ small
      rw [List.range_succ, List.foldl_append, List.foldl_cons, List.foldl_nil,
        Finset.sum_range_succ]
      exact ⟨next, by rw [sum, value]⟩

/-- An addition of words below twice a prime keeps the residue. -/
theorem modadd_wide (modulus : Modulus p) {a b : Nat} (left : a < 2 * p) (right : b ≤ 2 * p) :
    modadd a b p ≤ a + b ∧ (modadd a b p : ZMod p) = a + b := by
  have small := modulus.small
  rw [modadd, Nat.mod_eq_of_lt (show a + b < 2 ^ 64 by omega), WordReduction.correct]
  split_ifs with large
  · refine ⟨by omega, ?_⟩
    rw [Nat.cast_sub large, ZMod.natCast_self, sub_zero, Nat.cast_add]
  · exact ⟨le_rfl, Nat.cast_add a b⟩

/-- A subtraction from a word that is the prime itself keeps the residue. -/
theorem modsub_wide (modulus : Modulus p) {a b : Nat} (left : a ≤ p) (right : b < p) :
    modsub a b p ≤ 2 * p ∧ (modsub a b p : ZMod p) = a - b := by
  rcases Nat.lt_or_eq_of_le left with below | rfl
  · have reduced := modsub_lt modulus below right
    exact ⟨by omega, modsub_cast modulus below right⟩
  · have small := modulus.small
    have exactly := WordReduction.difference_eq right.le (show a - b < 2 ^ 64 by omega)
    rw [modsub, exactly]
    split_ifs with whole
    · have zero : b = 0 := by omega
      rw [zero, Nat.mod_eq_of_lt (by omega)]
      exact ⟨by omega, by simp⟩
    · exact ⟨by omega, by rw [Nat.cast_sub right.le]⟩

/-- The Barrett product also takes the prime itself. -/
theorem barrett_wide (modulus : Modulus p) {a b : Nat} (left : a < p) (right : b ≤ p) :
    modmult .barrett a b p 0 < p ∧ (modmult .barrett a b p 0 : ZMod p) = a * b := by
  rcases Nat.lt_or_eq_of_le right with below | rfl
  · exact ⟨barrett_lt modulus left below, barrett_cast modulus left below⟩
  · obtain ⟨two, sixty, low, high⟩ := prime_bits_bounds modulus
    have fits := WordReduction.leadingFits two (show prime_bits b + 2 ≤ 64 by omega) low
      (Or.inr (by omega)) high (Nat.mul_lt_mul_of_pos_right left modulus.pos)
    have product : modmult .barrett a b b 0 = a * b % b := Neal_mult_64_exact modulus.wide fits
    rw [product, Nat.mul_mod_left]
    exact ⟨modulus.pos, by simp⟩

end Words

/-- The objectives of a group have levels of the chain. -/
def Regular {S : Type} (group : List (Objective S)) : Prop :=
  ∀ objective ∈ group, objective.target_level < MAXP

namespace Encoding

variable {raw : RawParams} {R : Type} (enc : Encoding raw R) (ctxs : List Ciphertext)

section Real

theorem termRow_length (objective : Objective R) (i : Nat) :
    (enc.termRow ctxs objective i).length ≤ objective.target_level + 1 := by
  unfold termRow
  split
  · split_ifs
    · rw [enc.mult_length]
    · exact Nat.zero_le _
  · exact Nat.zero_le _

theorem biasRow_length (objective : Objective R) :
    (enc.biasRow objective).length ≤ objective.target_level + 1 := by
  simp only [biasRow]
  split_ifs
  · rw [List.length_mapIdx, enc.add_length]
  · rw [enc.add_length]
  · exact Nat.zero_le _

/-- The buffer holds the words of an objective at its place. -/
theorem elem_word {group : List (Objective R)} (regular : Regular group) {j : Nat}
    {objective : Objective R} (place : group[j]? = some objective) {i y : Nat}
    (term : i ≤ max_n group) (inside : y < MAXP) :
    bufferWord (enc.elem ctxs group) (j * (max_n group + 1) * MAXP + i * MAXP + y) =
      (if i < max_n group then enc.termRow ctxs objective (i + 1)
        else enc.biasRow objective).getD y 0 := by
  have width : ∀ other ∈ group, ∀ i, (padded (if i < max_n group then enc.termRow ctxs other (i + 1)
      else enc.biasRow other)).length = MAXP := by
    intro other mem i
    have level := regular other mem
    apply padded_length
    split_ifs
    · have short := enc.termRow_length ctxs other (i + 1)
      omega
    · have short := enc.biasRow_length other
      omega
  have row : ∀ other ∈ group, ((List.range (max_n group + 1)).flatMap fun i =>
      padded (if i < max_n group then enc.termRow ctxs other (i + 1)
        else enc.biasRow other)).length = (max_n group + 1) * MAXP := by
    intro other mem
    rw [length_flatMap_const fun i _ => width other mem i, List.length_range]
  have column : i * MAXP + y < (max_n group + 1) * MAXP := by
    have whole : i * MAXP ≤ max_n group * MAXP := Nat.mul_le_mul_right _ term
    rw [Nat.add_mul, Nat.one_mul]
    omega
  rw [bufferWord, elem, List.getD_eq_getElem?_getD, Nat.mul_assoc, Nat.add_assoc,
    getElem?_flatMap_const row column place,
    getElem?_flatMap_range (fun i _ => width objective (List.mem_of_getElem? place) i)
      (Nat.lt_succ_of_le term) inside, ← List.getD_eq_getElem?_getD, padded_getD]

end Real

section Complex

theorem termRows_length (objective : Objective (R × R)) (i : Nat) :
    (enc.termRows ctxs objective i).1.length ≤ objective.target_level + 1 ∧
      (enc.termRows ctxs objective i).2.length ≤ objective.target_level + 1 := by
  unfold termRows
  split
  · split_ifs
    · rw [enc.mult_length, enc.mult_length]
      exact ⟨le_rfl, le_rfl⟩
    · exact ⟨Nat.zero_le _, Nat.zero_le _⟩
  · exact ⟨Nat.zero_le _, Nat.zero_le _⟩

theorem signedRow_length (target_level : Nat) (part : R) :
    (enc.signedRow target_level part).length = target_level + 1 := by
  simp only [signedRow]
  split_ifs
  · rw [enc.add_length]
  · rw [List.length_mapIdx, enc.add_length]

theorem biasRows_length (objective : Objective (R × R)) :
    (enc.biasRows objective).1.length ≤ objective.target_level + 1 ∧
      (enc.biasRows objective).2.length ≤ objective.target_level + 1 := by
  simp only [biasRows]
  split_ifs
  · rw [enc.signedRow_length, enc.signedRow_length]
    exact ⟨le_rfl, le_rfl⟩
  · exact ⟨Nat.zero_le _, Nat.zero_le _⟩

/-- The two words of a constant stand one row apart. -/
theorem w_word {group : List (Objective (R × R))} (regular : Regular group) {j : Nat}
    {objective : Objective (R × R)} (place : group[j]? = some objective) {i y : Nat}
    (term : i ≤ max_n group) (inside : y < MAXP) :
    bufferWord (enc.w ctxs group) (2 * (j * (max_n group + 1) + i) * MAXP + y) =
        (if i < max_n group then enc.termRows ctxs objective (i + 1)
          else enc.biasRows objective).1.getD y 0 ∧
      bufferWord (enc.w ctxs group) ((2 * (j * (max_n group + 1) + i) + 1) * MAXP + y) =
        (if i < max_n group then enc.termRows ctxs objective (i + 1)
          else enc.biasRows objective).2.getD y 0 := by
  have short : ∀ rows ∈ enc.pairs ctxs group, rows.1.length ≤ MAXP ∧ rows.2.length ≤ MAXP := by
    intro rows mem
    obtain ⟨other, member, made⟩ := List.mem_flatMap.mp mem
    obtain ⟨i, -, rfl⟩ := List.mem_map.mp made
    have level := regular other member
    split_ifs
    · have lengths := enc.termRows_length ctxs other (i + 1)
      omega
    · have lengths := enc.biasRows_length other
      omega
  have width : ∀ rows ∈ enc.pairs ctxs group, (padded rows.1 ++ padded rows.2).length = 2 * MAXP := by
    intro rows mem
    rw [List.length_append, padded_length (short rows mem).1, padded_length (short rows mem).2]
    omega
  have pair : (enc.pairs ctxs group)[j * (max_n group + 1) + i]? =
      some (if i < max_n group then enc.termRows ctxs objective (i + 1)
        else enc.biasRows objective) := by
    have row : ∀ other ∈ group, ((List.range (max_n group + 1)).map fun i =>
        if i < max_n group then enc.termRows ctxs other (i + 1)
          else enc.biasRows other).length = max_n group + 1 := by
      intro other mem
      rw [List.length_map, List.length_range]
    rw [pairs, getElem?_flatMap_const row (Nat.lt_succ_of_le term) place, List.getElem?_map,
      List.getElem?_range (Nat.lt_succ_of_le term)]
    rfl
  have lengths := short _ (List.mem_of_getElem? pair)
  generalize (if i < max_n group then enc.termRows ctxs objective (i + 1)
    else enc.biasRows objective) = rows at pair lengths ⊢
  have first := padded_length lengths.1
  constructor
  · rw [bufferWord, w, List.getD_eq_getElem?_getD,
      show 2 * (j * (max_n group + 1) + i) * MAXP + y =
        (j * (max_n group + 1) + i) * (2 * MAXP) + y by ring,
      getElem?_flatMap_const width (by omega) pair, List.getElem?_append_left (by omega),
      ← List.getD_eq_getElem?_getD, padded_getD]
  · rw [bufferWord, w, List.getD_eq_getElem?_getD,
      show (2 * (j * (max_n group + 1) + i) + 1) * MAXP + y =
        (j * (max_n group + 1) + i) * (2 * MAXP) + (MAXP + y) by ring,
      getElem?_flatMap_const width (by omega) pair, List.getElem?_append_right (by omega), first,
      Nat.add_sub_cancel_left, ← List.getD_eq_getElem?_getD, padded_getD]

end Complex

end Encoding

/-- A constant of one slot has a real and an imaginary coefficient. -/
def constantLimb (raw : RawParams) (c0 c1 : Nat) : Limb := fun i =>
  if i = 0 then c0 else if i = raw.N / 2 then c1 else 0

/-- The last bit of a reversed number is its highest bit. -/
theorem reverse_parity {k slot : Nat} (inside : slot < 2 ^ (k + 1)) :
    reverse (k + 1) slot % 2 = slot / 2 ^ k := by
  have split := Nat.div_add_mod' slot (2 ^ k)
  have low := Nat.mod_lt slot (Nat.two_pow_pos k)
  have high : slot / 2 ^ k < 2 := by
    apply Nat.div_lt_of_lt_mul
    rwa [← pow_succ]
  have parts := reverse_append k 1 (slot / 2 ^ k) low
  rw [split] at parts
  have single : reverse 1 (slot / 2 ^ k) = slot / 2 ^ k := by
    rw [reverse, reverse, pow_zero, Nat.mul_one, Nat.add_zero, Nat.mod_eq_of_lt high]
  rw [parts, single, pow_one]
  omega

section Constant

variable {raw : RawParams} (generated : raw.Generated)

include generated

theorem half_dimension : raw.N / 2 = 2 ^ (raw.logN - 1) := by
  rw [← generated.dimension, pow_succ, Nat.mul_div_cancel _ two_pos]

/-- The half of a word is its highest bit. -/
theorem bidx_half (slot : Nat) : bidx (SetupConstants raw) 2 slot = slot / 2 ^ (raw.logN - 1) := by
  have nonzero : (2 : Nat) ^ (raw.logN - 1) ≠ 0 := (Nat.two_pow_pos _).ne'
  rw [bidx, threads_eq, Kernels.logstride, half_dimension generated, LinearTransform.ffs,
    if_neg nonzero, padicValNat.prime_pow, Nat.add_sub_cancel, Nat.shiftRight_eq_div_pow]

omit generated in
theorem psi_no_cast (id j : Nat) :
    ((SetupConstants raw).psi_no id j : ZMod (raw.prime id)) = raw.root id ^ j := by
  induction j with
  | zero => simp [Constants.psi_no]
  | succ j inductionHypothesis =>
      change ((raw.root id * (SetupConstants raw).psi_no id j % raw.prime id : Nat) :
        ZMod (raw.prime id)) = _
      rw [ZMod.natCast_mod, Nat.cast_mul, inductionHypothesis, pow_succ, mul_comm]

/-- The second entry of the table is a root of order four. -/
theorem psi_one (id : Nat) :
    ((SetupConstants raw).psi id 1 : ZMod (raw.prime id)) = raw.root id ^ (raw.N / 2) := by
  have ring := generated.ring
  have place : reverse raw.logN 1 = 2 ^ (raw.logN - 1) := by
    obtain ⟨k, bits⟩ := Nat.exists_eq_add_of_le' (show 1 ≤ raw.logN by omega)
    rw [bits, reverse, Nat.add_sub_cancel, show 1 / 2 = 0 by rfl, reverse_zero]
    omega
  change ((SetupConstants raw).psi_no id (reverse raw.logN 1) : ZMod (raw.prime id)) = _
  rw [psi_no_cast, place, half_dimension generated]

theorem psi_lt {id : Nat} (inside : id < raw.L + raw.K) (j : Nat) :
    (SetupConstants raw).psi id j < raw.prime id := by
  have modulus := generated.modulus inside
  change (SetupConstants raw).psi_no id (reverse raw.logN j) < raw.prime id
  cases reverse raw.logN j with
  | zero => exact modulus.large
  | succ j => exact Nat.mod_lt _ modulus.pos

/-- The transformed constant has one value in each half of the words. -/
theorem constant_NTT {id : Nat} (inside : id < raw.L + raw.K) (c0 c1 : Nat) {slot : Nat}
    (bound : slot < raw.N) :
    ((SetupConstants raw).NTT id (constantLimb raw c0 c1) slot : ZMod (raw.prime id)) =
      c0 + (if bidx (SetupConstants raw) 2 slot = 0 then 1 else -1) *
        ((SetupConstants raw).psi id 1 * c1) := by
  have positive := (generated.modulus inside).pos
  have below : slot < 2 ^ (raw.logN - 1 + 1) := lt_of_lt_of_eq bound generated.dimension.symm
  have half := root_half generated inside
  have middle : raw.N / 2 < 2 ^ (raw.logN - 1 + 1) := by
    rw [half_dimension generated, pow_succ]
    have some_ := Nat.two_pow_pos (raw.logN - 1)
    omega
  have read : residues (raw.prime id)
        ((SetupConstants raw).NTT id (constantLimb raw c0 c1)) slot =
      NegacyclicTransform.forward (raw.root id : ZMod (raw.prime id)) (raw.logN - 1)
        (residues (raw.prime id) (constantLimb raw c0 c1)) slot :=
    congrFun (@Constants.residues_NTT (SetupConstants raw) id positive _) slot
  have split : residues (raw.prime id) (constantLimb raw c0 c1) =
      fun i => (1 : ZMod (raw.prime id)) * ((if i = 0 then (c0 : ZMod (raw.prime id)) else 0) -
        (if i = raw.N / 2 then (-c1 : ZMod (raw.prime id)) else 0)) := by
    have apart : raw.N / 2 ≠ 0 := by
      rw [half_dimension generated]
      exact (Nat.two_pow_pos _).ne'
    funext i
    rw [residues, constantLimb]
    by_cases first : i = 0
    · rw [if_pos first, if_pos first, if_neg (by omega)]
      ring
    · rw [if_neg first, if_neg first]
      split_ifs <;> simp
  have turn : ((raw.root id : ZMod (raw.prime id)) ^
      (2 * reverse (raw.logN - 1 + 1) slot + 1)) ^ (raw.N / 2) =
        (if bidx (SetupConstants raw) 2 slot = 0 then 1 else -1) * (SetupConstants raw).psi id 1 := by
    have square : ((raw.root id : ZMod (raw.prime id)) ^ (raw.N / 2)) ^ 2 = -1 := by
      rw [← pow_mul, half_dimension generated, ← pow_succ]
      exact half
    have parity := reverse_parity below
    rw [psi_one generated, bidx_half generated, ← pow_mul, Nat.mul_comm, pow_mul, pow_succ, pow_mul,
      square, ← parity]
    rcases Nat.mod_two_eq_zero_or_one (reverse (raw.logN - 1 + 1) slot) with even | odd
    · rw [if_pos even, Even.neg_one_pow (Nat.even_iff.mpr even)]
    · rw [if_neg (by omega), Odd.neg_one_pow (Nat.odd_iff.mpr odd)]
  rw [split, NegacyclicTransform.forward_linear, forward_single half _ (Nat.two_pow_pos _) below,
    forward_single half _ middle below, turn, pow_zero] at read
  refine read.trans ?_
  ring

end Constant
section Sums

variable {raw : RawParams} (generated : raw.Generated) {R : Type} (enc : Encoding raw R)
  (ctxs : List Ciphertext)

/-- This is the term of one input for an objective with real weights. -/
def realTerm (objective : Objective R) (isC1 : Bool) (y idx i : Nat) : ZMod (raw.prime y) :=
  (enc.termRow ctxs objective (i + 1)).getD y 0 * inputWord ctxs isC1 i y idx

theorem termRow_lt (generated : raw.Generated) (objective : Objective R) (i : Nat) {y : Nat}
    (inside : y < raw.L) : (enc.termRow ctxs objective i).getD y 0 < raw.prime y := by
  have positive := (generated.modulus (show y < raw.L + raw.K by omega)).pos
  rw [List.getD_eq_getElem?_getD]
  cases found : (enc.termRow ctxs objective i)[y]? with
  | none => exact positive
  | some factor =>
      unfold Encoding.termRow at found
      split at found
      · split_ifs at found
        · exact enc.mult_lt _ _ _ _ _ inside found
        · cases found
      · cases found

/-- A negated word is at most the prime. -/
theorem negated_le (aux : List Nat) (y : Nat) :
    (aux.mapIdx fun i word => raw.prime i - word).getD y 0 ≤ raw.prime y := by
  rw [List.getD_eq_getElem?_getD, List.getElem?_mapIdx]
  cases aux[y]? with
  | none => exact Nat.zero_le _
  | some word => exact Nat.sub_le _ _

theorem encoded_le (level : Nat) (bias : R) {y : Nat} (inside : y < raw.L) :
    (enc.ElemForEvalAddOrSub level bias).getD y 0 ≤ raw.prime y := by
  rw [List.getD_eq_getElem?_getD]
  cases found : (enc.ElemForEvalAddOrSub level bias)[y]? with
  | none => exact Nat.zero_le _
  | some word => exact (enc.add_lt _ _ _ _ inside found).le

theorem biasRow_le (objective : Objective R) {y : Nat} (inside : y < raw.L) :
    (enc.biasRow objective).getD y 0 ≤ raw.prime y := by
  simp only [Encoding.biasRow]
  split_ifs
  · exact negated_le _ y
  · exact encoded_le enc _ _ inside
  · exact Nat.zero_le _

/-- The accumulator of an output skips the factors that are zero. -/
def addTerms (p n : Nat) (factor input : Nat → Nat) : Nat :=
  (List.range n).foldl (fun res i =>
    if factor i ≠ 0 then modadd res (modmult .barrett (input i) (factor i) p 0) p else res) 0

/-- The bias belongs to the first component. -/
def addBias (p : Nat) (isC1 : Bool) (res added : Nat) : Nat :=
  if isC1 = false ∧ added ≠ 0 then modadd res added p else res

theorem addTerms_sum {p n : Nat} (modulus : Modulus p) {factor input : Nat → Nat}
    (factors : ∀ i, i < n → factor i < p) (inputs : ∀ i, i < n → input i < p) :
    addTerms p n factor input < p ∧
      (addTerms p n factor input : ZMod p) = ∑ i ∈ Finset.range n, (factor i * input i : ZMod p) := by
  apply foldl_adds modulus.pos
  intro i below res reduced
  have product := barrett_lt modulus (inputs i below) (factors i below)
  have value := barrett_cast modulus (inputs i below) (factors i below)
  split_ifs with some_
  · refine ⟨modadd_lt modulus reduced product, ?_⟩
    rw [modadd_cast modulus reduced product, value, mul_comm]
  · rw [not_ne_iff.mp some_, Nat.cast_zero, zero_mul, add_zero]
    exact ⟨reduced, rfl⟩

theorem addTerms_congr (p : Nat) {n : Nat} {factor other : Nat → Nat} (input : Nat → Nat)
    (same : ∀ i, i < n → factor i = other i) : addTerms p n factor input = addTerms p n other input := by
  apply List.foldl_ext
  intro res i mem
  rw [same i (List.mem_range.mp mem)]

section Real

variable {group : List (Objective R)} (regular : Regular group) {j : Nat} {objective : Objective R}
  (place : group[j]? = some objective) {y : Nat} (inside : y < raw.L) (isC1 : Bool)
  {idx : Nat} (canonical : ∀ i, i < max_n group → inputWord ctxs isC1 i y idx < raw.prime y)

include generated regular place inside canonical

/-- The batched kernel adds the terms of each objective and its bias. -/
theorem real_kernel :
    eval_batched_linear_w_sum_with_bias_ (SetupConstants raw) (max_n group) (inputWord ctxs isC1)
        (bufferWord (enc.elem ctxs group)) isC1 j y idx < raw.prime y ∧
      (eval_batched_linear_w_sum_with_bias_ (SetupConstants raw) (max_n group)
        (inputWord ctxs isC1) (bufferWord (enc.elem ctxs group)) isC1 j y idx : ZMod (raw.prime y)) =
        ∑ i ∈ Finset.range (max_n group), realTerm enc ctxs objective isC1 y idx i +
          (if isC1 then 0 else ((enc.biasRow objective).getD y 0 : ZMod (raw.prime y))) := by
  have room := generated.tables
  have modulus := generated.modulus (show y < raw.L + raw.K by omega)
  have small := modulus.small
  have column : y < MAXP := by
    rw [MAXP]
    omega
  have read : ∀ i, i < max_n group → bufferWord (enc.elem ctxs group)
      (j * (max_n group + 1) * MAXP + i * MAXP + y) =
        (enc.termRow ctxs objective (i + 1)).getD y 0 := by
    intro i below
    rw [enc.elem_word ctxs regular place below.le column, if_pos below]
  have bias := enc.elem_word ctxs regular place le_rfl column
  rw [if_neg (lt_irrefl _)] at bias
  have limit := biasRow_le enc objective inside
  obtain ⟨reduced, value⟩ := addTerms_sum modulus
    (fun i _ => termRow_lt enc ctxs generated objective (i + 1) inside) canonical
  have kernel : eval_batched_linear_w_sum_with_bias_ (SetupConstants raw) (max_n group)
      (inputWord ctxs isC1) (bufferWord (enc.elem ctxs group)) isC1 j y idx =
      modreduce (addBias (raw.prime y) isC1 (addTerms (raw.prime y) (max_n group)
        (fun i => bufferWord (enc.elem ctxs group) (j * (max_n group + 1) * MAXP + i * MAXP + y))
        fun i => inputWord ctxs isC1 i y idx)
        (bufferWord (enc.elem ctxs group)
          (j * (max_n group + 1) * MAXP + max_n group * MAXP + y))) (raw.prime y) := rfl
  rw [kernel, addTerms_congr (raw.prime y) _ read, bias, addBias]
  simp only [realTerm]
  rw [← value]
  generalize addTerms _ _ _ _ = res at reduced ⊢
  generalize (enc.biasRow objective).getD y 0 = added at limit ⊢
  obtain ⟨wide, total⟩ := modadd_wide modulus (show res < 2 * raw.prime y by omega)
    (show added ≤ 2 * raw.prime y by omega)
  cases isC1 with
  | true =>
      rw [if_neg (by simp), if_pos rfl, add_zero]
      exact ⟨modreduce_lt modulus (by omega), modreduce_cast modulus (by omega)⟩
  | false =>
      rw [if_neg Bool.false_ne_true]
      split_ifs with some_
      · exact ⟨modreduce_lt modulus (by omega), by rw [modreduce_cast modulus (by omega), total]⟩
      · have zero : added = 0 := by simpa using some_
        rw [zero, Nat.cast_zero, add_zero]
        exact ⟨modreduce_lt modulus (by omega), modreduce_cast modulus (by omega)⟩

end Real

section Complex

/-- This is the term of one input for an objective with complex weights. -/
def complexTerm (objective : Objective (R × R)) (isC1 : Bool) (y idx i : Nat) :
    ZMod (raw.prime y) :=
  (SetupConstants raw).NTT y (constantLimb raw ((enc.termRows ctxs objective (i + 1)).1.getD y 0)
    ((enc.termRows ctxs objective (i + 1)).2.getD y 0)) idx * inputWord ctxs isC1 i y idx

theorem termRows_lt (generated : raw.Generated) (objective : Objective (R × R)) (i : Nat) {y : Nat}
    (inside : y < raw.L) :
    (enc.termRows ctxs objective i).1.getD y 0 < raw.prime y ∧
      (enc.termRows ctxs objective i).2.getD y 0 < raw.prime y := by
  have positive := (generated.modulus (show y < raw.L + raw.K by omega)).pos
  have encoded : ∀ level w level_in,
      (enc.ElemForEvalMult level w level_in).getD y 0 < raw.prime y := by
    intro level w level_in
    rw [List.getD_eq_getElem?_getD]
    cases found : (enc.ElemForEvalMult level w level_in)[y]? with
    | none => exact positive
    | some factor => exact enc.mult_lt _ _ _ _ _ inside found
  unfold Encoding.termRows
  split
  · split_ifs
    · exact ⟨encoded _ _ _, encoded _ _ _⟩
    · exact ⟨positive, positive⟩
  · exact ⟨positive, positive⟩

theorem signedRow_le (level : Nat) (part : R) {y : Nat} (inside : y < raw.L) :
    (enc.signedRow level part).getD y 0 ≤ raw.prime y := by
  simp only [Encoding.signedRow]
  split_ifs
  · exact encoded_le enc _ _ inside
  · exact negated_le _ y

theorem biasRows_le (objective : Objective (R × R)) {y : Nat} (inside : y < raw.L) :
    (enc.biasRows objective).1.getD y 0 ≤ raw.prime y ∧
      (enc.biasRows objective).2.getD y 0 ≤ raw.prime y := by
  simp only [Encoding.biasRows]
  split_ifs
  · exact ⟨signedRow_le enc _ _ inside, signedRow_le enc _ _ inside⟩
  · exact ⟨Nat.zero_le _, Nat.zero_le _⟩

/-- The shared memory holds the transformed constant, reduced where its parts are. -/
theorem Fsh_constant (generated : raw.Generated) {w : Nat → Nat} {y pair idx c0 c1 : Nat}
    (inside : y < raw.L) (bound : idx < raw.N) (first : w (2 * pair * MAXP + y) = c0)
    (second : w ((2 * pair + 1) * MAXP + y) = c1) (low : c0 ≤ raw.prime y) (high : c1 ≤ raw.prime y) :
    (Fsh (SetupConstants raw) w y pair (bidx (SetupConstants raw) 2 idx) : ZMod (raw.prime y)) =
        (SetupConstants raw).NTT y (constantLimb raw c0 c1) idx ∧
      Fsh (SetupConstants raw) w y pair (bidx (SetupConstants raw) 2 idx) ≤ 2 * raw.prime y ∧
      (c0 < raw.prime y →
        Fsh (SetupConstants raw) w y pair (bidx (SetupConstants raw) 2 idx) < raw.prime y) := by
  have modulus := generated.modulus (show y < raw.L + raw.K by omega)
  have root := psi_lt generated (show y < raw.L + raw.K by omega) 1
  obtain ⟨reduced, product⟩ := barrett_wide modulus root high
  have shared : Fsh (SetupConstants raw) w y pair (bidx (SetupConstants raw) 2 idx) =
      if bidx (SetupConstants raw) 2 idx = 0 then
        modadd c0 (modmult .barrett ((SetupConstants raw).psi y 1) c1 (raw.prime y) 0) (raw.prime y)
      else modsub c0 (modmult .barrett ((SetupConstants raw).psi y 1) c1 (raw.prime y) 0)
        (raw.prime y) := by
    rw [← first, ← second]
    rfl
  rw [shared, constant_NTT generated (show y < raw.L + raw.K by omega) c0 c1 bound]
  rw [← product]
  generalize modmult .barrett _ c1 _ 0 = sc at reduced ⊢
  obtain ⟨sum, total⟩ := modadd_wide modulus (show c0 < 2 * raw.prime y by omega)
    (show sc ≤ 2 * raw.prime y by omega)
  obtain ⟨difference, rest⟩ := modsub_wide modulus low reduced
  split_ifs
  · exact ⟨by rw [total, one_mul], by omega, fun canonical => modadd_lt modulus canonical reduced⟩
  · exact ⟨by rw [rest, neg_one_mul, sub_eq_add_neg], difference,
      fun canonical => modsub_lt modulus canonical reduced⟩

variable {group : List (Objective (R × R))} (regular : Regular group) {j : Nat}
  {objective : Objective (R × R)} (place : group[j]? = some objective) {y : Nat}
  (inside : y < raw.L) (isC1 : Bool) {idx : Nat} (bound : idx < raw.N)
  (canonical : ∀ i, i < max_n group → inputWord ctxs isC1 i y idx < raw.prime y)

include generated regular place inside bound canonical

/-- The batched kernel adds the terms of each objective and its bias. -/
theorem complex_kernel :
    eval_batched_linear_w_sum_complex_with_bias_ (SetupConstants raw) (max_n group)
        (inputWord ctxs isC1) (bufferWord (enc.w ctxs group)) isC1 j y idx < raw.prime y ∧
      (eval_batched_linear_w_sum_complex_with_bias_ (SetupConstants raw) (max_n group)
        (inputWord ctxs isC1) (bufferWord (enc.w ctxs group)) isC1 j y idx : ZMod (raw.prime y)) =
        ∑ i ∈ Finset.range (max_n group), complexTerm enc ctxs objective isC1 y idx i +
          (if isC1 then 0 else ((SetupConstants raw).NTT y (constantLimb raw
            ((enc.biasRows objective).1.getD y 0) ((enc.biasRows objective).2.getD y 0)) idx :
              ZMod (raw.prime y))) := by
  have room := generated.tables
  have modulus := generated.modulus (show y < raw.L + raw.K by omega)
  have small := modulus.small
  have column : y < MAXP := by
    rw [MAXP]
    omega
  have factor : ∀ i, i < max_n group →
      Fsh (SetupConstants raw) (bufferWord (enc.w ctxs group)) y (j * (max_n group + 1) + i)
          (bidx (SetupConstants raw) 2 idx) < raw.prime y ∧
        (Fsh (SetupConstants raw) (bufferWord (enc.w ctxs group)) y (j * (max_n group + 1) + i)
          (bidx (SetupConstants raw) 2 idx) : ZMod (raw.prime y)) =
          (SetupConstants raw).NTT y (constantLimb raw
            ((enc.termRows ctxs objective (i + 1)).1.getD y 0)
            ((enc.termRows ctxs objective (i + 1)).2.getD y 0)) idx := by
    intro i below
    obtain ⟨first, second⟩ := enc.w_word ctxs regular place below.le column
    rw [if_pos below] at first second
    obtain ⟨low, high⟩ := termRows_lt enc ctxs generated objective (i + 1) inside
    obtain ⟨value, -, reduced⟩ := Fsh_constant generated inside bound first second low.le high.le
    exact ⟨reduced low, value⟩
  obtain ⟨first, second⟩ := enc.w_word ctxs regular place (le_refl (max_n group)) column
  rw [if_neg (lt_irrefl _)] at first second
  obtain ⟨low, high⟩ := biasRows_le enc objective inside
  obtain ⟨bias, limit, -⟩ := Fsh_constant generated inside bound first second low high
  obtain ⟨reduced, value⟩ := @foldl_adds (raw.prime y)
    (fun res i => modadd res (modmult .barrett (inputWord ctxs isC1 i y idx)
      (Fsh (SetupConstants raw) (bufferWord (enc.w ctxs group)) y (j * (max_n group + 1) + i)
        (bidx (SetupConstants raw) 2 idx)) (raw.prime y) 0) (raw.prime y))
    (complexTerm enc ctxs objective isC1 y idx) (max_n group) modulus.pos (by
      intro i below res reduced
      obtain ⟨small, value⟩ := factor i below
      have product := barrett_lt modulus (canonical i below) small
      refine ⟨modadd_lt modulus reduced product, ?_⟩
      rw [modadd_cast modulus reduced product, barrett_cast modulus (canonical i below) small, value,
        complexTerm, mul_comm])
  have kernel : eval_batched_linear_w_sum_complex_with_bias_ (SetupConstants raw) (max_n group)
      (inputWord ctxs isC1) (bufferWord (enc.w ctxs group)) isC1 j y idx =
      modreduce (if isC1 = false then modadd ((List.range (max_n group)).foldl (fun res i =>
          modadd res (modmult .barrett (inputWord ctxs isC1 i y idx)
            (Fsh (SetupConstants raw) (bufferWord (enc.w ctxs group)) y (j * (max_n group + 1) + i)
              (bidx (SetupConstants raw) 2 idx)) (raw.prime y) 0) (raw.prime y)) 0)
          (Fsh (SetupConstants raw) (bufferWord (enc.w ctxs group)) y
            (j * (max_n group + 1) + max_n group) (bidx (SetupConstants raw) 2 idx)) (raw.prime y)
        else (List.range (max_n group)).foldl (fun res i =>
          modadd res (modmult .barrett (inputWord ctxs isC1 i y idx)
            (Fsh (SetupConstants raw) (bufferWord (enc.w ctxs group)) y (j * (max_n group + 1) + i)
              (bidx (SetupConstants raw) 2 idx)) (raw.prime y) 0) (raw.prime y)) 0)
        (raw.prime y) := rfl
  rw [kernel, ← bias, ← value]
  generalize (List.range (max_n group)).foldl _ 0 = res at reduced ⊢
  generalize Fsh _ _ _ (j * (max_n group + 1) + max_n group) _ = added at limit ⊢
  obtain ⟨wide, total⟩ := modadd_wide modulus (show res < 2 * raw.prime y by omega)
    (show added ≤ 2 * raw.prime y by omega)
  cases isC1 with
  | true =>
      rw [if_neg (by simp), if_pos rfl, add_zero]
      exact ⟨modreduce_lt modulus (by omega), modreduce_cast modulus (by omega)⟩
  | false =>
      rw [if_pos rfl, if_neg Bool.false_ne_true]
      exact ⟨modreduce_lt modulus (by omega), by rw [modreduce_cast modulus (by omega), total]⟩

end Complex

end Sums

end Fideslib.KeySwitch
