/-
This file proves what the forward and the inverse kernel do with a whole limb, and what every
schedule of the forward kernel leaves in it.
-/

import Fideslib.OnePass.Values
import Fideslib.Twiddles.Device

namespace Fideslib.OnePass

open Fideslib.Modular ThreadBlock NegacyclicTransform Butterflies
open BitReversal (reverse)
open StateMachine (Run)
open Twiddles

/-- A block finds these words in the tables. -/
def tableWords (block : Block) (table : Table) (i : Nat) : Nat := block.memory (.table table i)

section Limbs

variable {algo : ALGO} {p logN k : Nat} {block : Block} {root : ZMod p}
  {table table_shoup : Table} {buffer dat res : Nat} {x y h : Nat → ZMod p}

/-- A limb holds these residues. -/
abbrev HoldsLimb (p k buffer : Nat) (memory : Cell → Nat) (x : Nat → ZMod p) : Prop :=
  Residues p (2 * 2 ^ k) (fun i => memory (.limb buffer i)) x

/-- Two neighbours stand for all words. -/
theorem pair_cases {i : Nat} (inside : i < 2 * 2 ^ k) :
    ∃ tid < 2 ^ k, i = tid <<< 1 ∨ i = (tid <<< 1) + 1 := by
  refine ⟨i / 2, Nat.div_lt_of_lt_mul inside, ?_⟩
  rw [Nat.shiftLeft_eq]
  omega

/-- The threads bring the limb and the roots to the shared words. -/
theorem lockstep_load (table table_shoup : Table) :
    (∀ i < 2 * 2 ^ k, (lockstep (List.range (2 ^ k))
        (load_psi algo (2 ^ k) table table_shoup ++ copy (.limb dat) .shared) block).memory
          (.shared i) = block.memory (.limb dat i)) ∧
      (∀ i < 2 ^ k, (lockstep (List.range (2 ^ k))
        (load_psi algo (2 ^ k) table table_shoup ++ copy (.limb dat) .shared) block).memory
          (psi (2 ^ k) i) = block.memory (.table table i)) ∧
      (algo = .shoup → ∀ i < 2 ^ k, (lockstep (List.range (2 ^ k))
        (load_psi algo (2 ^ k) table table_shoup ++ copy (.limb dat) .shared) block).memory
          (psi_shoup algo (2 ^ k) i) = block.memory (.table table_shoup i)) := by
  have owned := @owned_load algo k dat _ (range_inside (2 ^ k)) table table_shoup
  have single {tid : Nat} (inside : tid < 2 ^ k) {cell : Cell} (brings : Brings algo k dat tid cell) :
      (lockstep (List.range (2 ^ k))
        (load_psi algo (2 ^ k) table table_shoup ++ copy (.limb dat) .shared) block).memory cell =
          (alone (copy (.limb dat) .shared) tid
            (alone (load_psi algo (2 ^ k) table table_shoup) tid block)).memory cell := by
    rw [← alone_append]
    exact lockstep_owner List.nodup_range owned (exclusive_brings (range_inside _))
      (List.mem_range.mpr inside) brings block
  have apart (tid : Nat) : Cell.shared (tid <<< 1) ≠ .shared ((tid <<< 1) + 1) := by
    rw [Ne, Cell.shared.injEq]
    omega
  have outside (place : Nat) : ∀ i, 2 * 2 ^ k ≤ i → Cell.limb dat place ≠ .shared i := by
    intro i _ same
    cases same
  have far {tid : Nat} (inside : tid < 2 ^ k) (i : Nat) (behind : 2 * 2 ^ k ≤ i) :
      Cell.shared i ≠ .shared (tid <<< 1) ∧ Cell.shared i ≠ .shared ((tid <<< 1) + 1) := by
    rw [Ne, Ne, Cell.shared.injEq, Cell.shared.injEq, Nat.shiftLeft_eq]
    omega
  refine ⟨fun i inside => ?_, fun tid inside => ?_, fun chosen tid inside => ?_⟩
  · obtain ⟨tid, bound, place⟩ := pair_cases inside
    have brings : Brings algo k dat tid (.shared i) := by
      refine .inl ⟨inside, ?_⟩
      rw [Nat.shiftLeft_eq] at place
      omega
    obtain ⟨-, -, kept⟩ := @alone_load_psi algo tid block _ bound table table_shoup
    obtain ⟨first, second, -⟩ := @alone_copy tid
      (alone (load_psi algo (2 ^ k) table table_shoup) tid block) (.limb dat) .shared (apart tid)
    rw [single bound brings]
    rcases place with rfl | rfl
    · rw [first, kept _ (outside _)]
    · rw [second, kept _ (outside _)]
  · obtain ⟨own, -, -⟩ := @alone_load_psi algo tid block _ inside table table_shoup
    obtain ⟨-, -, kept⟩ := @alone_copy tid
      (alone (load_psi algo (2 ^ k) table table_shoup) tid block) (.limb dat) .shared (apart tid)
    obtain ⟨first, second⟩ := far inside (2 * 2 ^ k + tid) (Nat.le_add_right _ _)
    have brings : Brings algo k dat tid (psi (2 ^ k) tid) := .inr (.inl rfl)
    rw [single inside brings, kept (psi (2 ^ k) tid) first second, own]
  · obtain ⟨-, own, -⟩ := @alone_load_psi algo tid block _ inside table table_shoup
    obtain ⟨-, -, kept⟩ := @alone_copy tid
      (alone (load_psi algo (2 ^ k) table table_shoup) tid block) (.limb dat) .shared (apart tid)
    have place : psi_shoup algo (2 ^ k) tid = .shared (3 * 2 ^ k + tid) := by
      rw [psi_shoup, if_pos chosen, Nat.mul_comm]
    obtain ⟨first, second⟩ := far inside (3 * 2 ^ k + tid) (by omega)
    have brings : Brings algo k dat tid (.shared (3 * 2 ^ k + tid)) := .inr (.inr ⟨chosen, rfl⟩)
    rw [← place] at first second brings
    rw [single inside brings, kept _ first second, own chosen]

/-- The threads return the shared words to a limb. -/
theorem lockstep_return {i : Nat} (inside : i < 2 * 2 ^ k) :
    (lockstep (List.range (2 ^ k)) (copy .shared (.limb res)) block).memory (.limb res i) =
      block.memory (.shared i) := by
  have owned := @owned_return k res _ (range_inside (2 ^ k))
  obtain ⟨tid, bound, place⟩ := pair_cases inside
  have apart : Cell.limb res (tid <<< 1) ≠ .limb res ((tid <<< 1) + 1) := by
    rw [Ne, Cell.limb.injEq]
    omega
  obtain ⟨first, second, -⟩ := @alone_copy tid block .shared (.limb res) apart
  have returns : Returns k res tid (.limb res i) := by
    refine ⟨rfl, ?_⟩
    rw [Nat.shiftLeft_eq] at place
    omega
  rw [lockstep_owner List.nodup_range owned exclusive_returns (List.mem_range.mpr bound) returns]
  rcases place with rfl | rfl
  · exact first
  · exact second

/-- A load leaves the tables as they are. -/
theorem tableWords_load (other other_shoup : Table) :
    tableWords (lockstep (List.range (2 ^ k))
      (load_psi algo (2 ^ k) other other_shoup ++ copy (.limb dat) .shared) block) =
        tableWords block := by
  funext table i
  apply lockstep_frame (@owned_load algo k dat _ (range_inside (2 ^ k)) other other_shoup)
  intro tid _ brings
  exact brings

/-- Words of a thread leave the tables as they are. -/
theorem tableWords_mine {m : Nat} {code : Code Nat Cell} {team : List Nat}
    (owned : Owned team (Mine k m) (fun _ => Roots k) code) :
    tableWords (lockstep team code block) = tableWords block := by
  funext table i
  apply lockstep_frame owned
  intro tid _ mine
  exact mine

theorem holds_load (limb : HoldsLimb p k dat block.memory x) (table table_shoup : Table) :
    Holds p k (lockstep (List.range (2 ^ k))
      (load_psi algo (2 ^ k) table table_shoup ++ copy (.limb dat) .shared) block) x :=
  limb.of_same (lockstep_load table table_shoup).1

theorem twists_load (powers : Powers p logN root table table_shoup (tableWords block))
    (short : k + 1 ≤ logN) :
    Twists algo p k (lockstep (List.range (2 ^ k))
      (load_psi algo (2 ^ k) table table_shoup ++ copy (.limb dat) .shared) block)
        fun i => (shortRoot root logN k ^ 2) ^ reverse k i := by
  obtain ⟨-, roots, quotients⟩ := @lockstep_load algo k block dat table table_shoup
  have below {i : Nat} (inside : i < 2 ^ k) : i < 2 ^ logN :=
    inside.trans (Nat.pow_lt_pow_right one_lt_two (by omega))
  refine ⟨⟨fun i inside => ?_, fun i inside => ?_⟩, fun chosen i inside => ?_⟩
  · rw [roots i inside]
    exact powers.small i (below inside)
  · rw [roots i inside]
    exact powers.twist short inside
  · rw [quotients chosen i inside, roots i inside]
    exact powers.quotient i (below inside)

end Limbs

section Forward

variable {algo : ALGO} {p logN k : Nat} {block : Block} {root w : ZMod p} {dat res : Nat}
  {x y h : Nat → ZMod p}

theorem lockstep_syncthreads (team : List Nat) (block : Block) :
    lockstep team [syncthreads] block = block :=
  sweep_barrier team _ block

/-- A thread scales its two words by the powers of the root at their places. -/
theorem holds_forward_scale (modulus : Modulus p) (narrow : k < 32) (holds : Holds p k block x)
    (twists : Twists algo p k block fun i => (w ^ 2) ^ reverse k i)
    (small : block.memory (.table .psi (1 <<< (k + 1 - 1))) < p)
    (value : (block.memory (.table .psi (1 <<< (k + 1 - 1))) : ZMod p) = w) :
    Holds p k (lockstep (List.range (2 ^ k))
      (forward_negacyclic_scale_1D algo p (2 ^ k) (k + 1)) block) fun i => x i * w ^ i := by
  apply @Residues.of_places p k 0 _ _ (Nat.zero_le k)
  intro tid inside
  have owned := @owned_forward_scale algo p k _ (range_inside (2 ^ k))
  have listed := List.mem_range.mpr inside
  have double : tid <<< 1 = 2 * tid := by rw [Nat.shiftLeft_eq, pow_one, Nat.mul_comm]
  rw [pow_zero, firstPlace_one, secondPlace_one,
    lockstep_mine List.nodup_range owned listed (mine_shift (range_inside _) listed),
    lockstep_mine List.nodup_range owned listed (mine_shift_succ (range_inside _) listed)]
  obtain ⟨aux_shoup, root_shoup, prepared, first, second⟩ :=
    @alone_forward_scale algo p tid block (2 ^ k) (k + 1)
  have index := BitReversal.reverse_lt k tid
  rw [pos1_eq narrow inside] at prepared first second
  have auxSmall := twists.small _ index
  have power : ((w : ZMod p) ^ 2) ^ reverse k (reverse k tid) = w ^ (2 * tid) := by
    rw [BitReversal.reverse_reverse inside, ← pow_mul]
  have aux := twists.value _ index
  rw [power] at aux
  have quotient (chosen : algo = .shoup) := (prepared chosen).trans (twists.quotient chosen _ index)
  have bound : (tid <<< 1) + 1 < 2 * 2 ^ k := by omega
  have left := holds.small (tid <<< 1) (Nat.lt_of_succ_lt bound)
  have right := holds.small ((tid <<< 1) + 1) bound
  obtain ⟨evenSmall, even⟩ := modmult_right modulus left auxSmall quotient
  obtain ⟨halfSmall, half⟩ := modmult_right modulus right auxSmall quotient
  obtain ⟨oddSmall, odd⟩ := @modmult_right .barrett p modulus _ _ root_shoup halfSmall small
    fun same => nomatch same
  rw [first, second]
  refine ⟨⟨evenSmall, ?_⟩, oddSmall, ?_⟩
  · rw [even, aux, holds.value _ (Nat.lt_of_succ_lt bound), double]
  · rw [odd, half, aux, value, holds.value _ bound, double, mul_assoc, ← pow_succ]

/-- A thread of a team adds and subtracts its two words. -/
theorem halves_words (modulus : Modulus p) {team : List Nat} (once : team.Nodup)
    (inside : ∀ tid ∈ team, tid < 2 ^ k) {tid : Nat} (listed : tid ∈ team)
    (left : block.memory (.shared tid) < p) (right : block.memory (.shared (tid + 2 ^ k)) < p) :
    ((lockstep team (halves p (2 ^ k)) block).memory (.shared tid) < p ∧
      ((lockstep team (halves p (2 ^ k)) block).memory (.shared tid) : ZMod p) =
        block.memory (.shared tid) + block.memory (.shared (tid + 2 ^ k))) ∧
      (lockstep team (halves p (2 ^ k)) block).memory (.shared (tid + 2 ^ k)) < p ∧
      ((lockstep team (halves p (2 ^ k)) block).memory (.shared (tid + 2 ^ k)) : ZMod p) =
        block.memory (.shared tid) - block.memory (.shared (tid + 2 ^ k)) := by
  have owned := @owned_halves p k _ inside
  have bound := inside tid listed
  have first := mine_first (le_refl k) bound
  have second := mine_second (le_refl k) bound
  rw [firstPlace_whole bound] at first
  rw [secondPlace_whole bound] at second
  obtain ⟨sum, difference⟩ := @alone_halves p tid block _ (Nat.two_pow_pos k)
  rw [lockstep_mine once owned listed first, lockstep_mine once owned listed second, sum, difference]
  exact ⟨⟨modadd_lt modulus left right, modadd_cast modulus left right⟩,
    modsub_lt modulus left right, modsub_cast modulus left right⟩

/-- The two halves of the limb are added and subtracted. -/
theorem holds_halves (modulus : Modulus p) (holds : Holds p k block y) :
    Holds p k (lockstep (List.range (2 ^ k)) (halves p (2 ^ k)) block)
      (ctLevel (fun _ => 1) (2 ^ k) y) := by
  apply holds.half_level modulus
  intro tid inside
  have owned := @owned_halves p k _ (range_inside (2 ^ k))
  have listed := List.mem_range.mpr inside
  have first := mine_first (le_refl k) inside
  have second := mine_second (le_refl k) inside
  rw [firstPlace_whole inside] at first
  rw [secondPlace_whole inside] at second
  obtain ⟨sum, difference⟩ := @alone_halves p tid block _ (Nat.two_pow_pos k)
  refine ⟨?_, ?_⟩
  · rw [lockstep_mine List.nodup_range owned listed first, sum]
  · rw [lockstep_mine List.nodup_range owned listed second, difference]

theorem twist_zero : ((w ^ 2) ^ reverse k 0 : ZMod p) = 1 := by
  rw [BitReversal.reverse_zero, pow_zero]

/-- The rounds below a level complete it to all levels. -/
theorem holds_forwardLevels (modulus : Modulus p) {s : Nat} (order : s ≤ k)
    (holds : Holds p k block (ctLevel h (2 ^ s) y)) (twists : Twists algo p k block h) :
    Holds p k (lockstep (List.range (2 ^ k)) (forwardLevels (NTT_round algo p (2 ^ k)) k s) block)
      (ctLevels h s y) := by
  induction s generalizing block y with
  | zero =>
      rw [pow_zero] at holds
      exact holds
  | succ s inductionHypothesis =>
      have owned := @owned_NTT_round algo p k s _ (range_inside (2 ^ k)) (by omega)
        (2 ^ (k + 1) - 2 ^ s)
      rw [forwardLevels, lockstep_append]
      apply inductionHypothesis (by omega)
      · exact holds_NTT_round modulus (by omega) holds twists
      · exact twists_kept twists fun cell root => lockstep_roots owned root

/-- Side by side, the threads of the forward kernel leave the transform of their limb. -/
theorem lockstep_NTT_1D (modulus : Modulus p) (short : k + 1 ≤ logN) (narrow : k < 32)
    (limb : HoldsLimb p k dat block.memory x)
    (powers : Powers p logN root .psi .psi_shoup (tableWords block)) :
    HoldsLimb p k res
      (lockstep (List.range (2 ^ k)) (NTT_1D_ algo p (2 ^ k) dat res) block).memory
        (forward (shortRoot root logN k) k x) := by
  simp only [NTT_1D_eq, List.append_assoc]
  rw [← List.append_assoc, lockstep_append, lockstep_append, lockstep_append, lockstep_append,
    lockstep_append, lockstep_append, lockstep_syncthreads, lockstep_syncthreads]
  have loaded := @holds_load algo p k block dat x limb .psi .psi_shoup
  have twists := @twists_load algo p logN k block root .psi .psi_shoup dat powers short
  have tables := powers
  rw [← @tableWords_load algo k block dat .psi .psi_shoup] at tables
  have scaled := holds_forward_scale modulus narrow loaded twists
    (tables.small _ (half_below short)) (tables.half short)
  have twistsScaled := twists_kept twists fun cell kept =>
    lockstep_roots (@owned_forward_scale algo p k _ (range_inside (2 ^ k))) kept
  have summed := (holds_halves modulus scaled).congr fun i inside =>
    @whole_ctLevel (ZMod p) _ (fun i => (shortRoot root logN k ^ 2) ^ reverse k i) _ k twist_zero i inside
  have twistsSummed := twists_kept twistsScaled fun cell kept =>
    lockstep_roots (@owned_halves p k _ (range_inside (2 ^ k))) kept
  have levels := holds_forwardLevels modulus (le_refl k) summed twistsSummed
  refine ⟨fun i inside => ?_, fun i inside => ?_⟩
  · rw [lockstep_return inside]
    exact levels.small i inside
  · rw [lockstep_return inside]
    exact levels.value i inside

end Forward

section Backward

variable {algo : ALGO} {constants : Constants} {k : Nat} {block : Block} {dat res : Nat}
  {root v : ZMod constants.p} {x y h : Nat → ZMod constants.p}

theorem backwardLevels_roots (s : Nat) (order : s ≤ k) {cell : Cell} (root : Roots k cell) :
    (lockstep (List.range (2 ^ k)) (backwardLevels (INTT_round algo constants (2 ^ k)) k s) block).memory cell =
      block.memory cell := by
  induction s with
  | zero => rfl
  | succ s inductionHypothesis =>
      have owned := @owned_INTT_round algo k s _ (range_inside (2 ^ k)) constants (by omega)
        (2 ^ k - 2 ^ s)
      rw [backwardLevels, lockstep_append, lockstep_roots owned root, inductionHypothesis (by omega)]

theorem tableWords_rounds {s : Nat} (order : s ≤ k) :
    tableWords (lockstep (List.range (2 ^ k)) (backwardLevels (INTT_round algo constants (2 ^ k)) k s) block) =
      tableWords block := by
  induction s with
  | zero => rfl
  | succ s inductionHypothesis =>
      rw [backwardLevels, lockstep_append,
        tableWords_mine (owned_INTT_round (range_inside (2 ^ k)) constants (by omega) _),
        inductionHypothesis (by omega)]

/-- The rounds of the inverse kernel are its levels but the last one. -/
theorem holds_backwardLevels (modulus : Modulus constants.p) {s : Nat} (order : s ≤ k)
    (holds : Holds constants.p k block y) (twists : Twists algo constants.p k block h) :
    Holds constants.p k (lockstep (List.range (2 ^ k)) (backwardLevels (INTT_round algo constants (2 ^ k)) k s) block)
      (innerLevels h s y) := by
  induction s with
  | zero => exact holds
  | succ s inductionHypothesis =>
      have before := inductionHypothesis (by omega)
      have stays := twists_kept twists fun cell root =>
        @backwardLevels_roots algo constants k block s (by omega) cell root
      rw [backwardLevels, lockstep_append, innerLevels, ← gsLevels_inner]
      exact holds_INTT_round modulus (by omega) before stays

/-- The factor of a thread is canonical and holds the inverse of the length. -/
theorem factor_right (modulus : Modulus constants.p) (right : constants.Right) {word : Nat}
    (small : word < constants.p) :
    factor constants (k + 1) word < constants.p ∧
      (factor constants (k + 1) word : ZMod constants.p) = word * shortCount constants k := by
  have power : 1 <<< (constants.logN - (k + 1)) < constants.p := by
    rw [Nat.shiftLeft_eq, Nat.one_mul]
    exact (Nat.pow_le_pow_right two_pos (Nat.sub_le _ _)).trans_lt right.wide
  obtain ⟨shortSmall, shorter⟩ := @modmult_right .barrett constants.p modulus _ _ 0 small power
    fun same => nomatch same
  obtain ⟨allSmall, all⟩ := @modmult_right .shoup constants.p modulus _ _ constants.N_inv_shoup
    shortSmall right.small fun _ => right.quotient
  refine ⟨allSmall, ?_⟩
  rw [factor, all, shorter, shortCount, Nat.shiftLeft_eq, Nat.one_mul, Nat.cast_mul, mul_assoc]

/-- The table of the inverse root fits the scaling of a limb. -/
structure ScaleRight (algo : ALGO) (constants : Constants) (k : Nat) (v : ZMod constants.p)
    (block : Block) : Prop where
  twists : Twists algo constants.p k block fun i => (v ^ 2) ^ reverse k i
  small : block.memory (.table .inv_psi (1 <<< (k + 1 - 1))) < constants.p
  value : (block.memory (.table .inv_psi (1 <<< (k + 1 - 1))) : ZMod constants.p) = v
  quotient : block.memory (.table .inv_psi_shoup (1 <<< (k + 1 - 1))) =
    shoup_precomp (block.memory (.table .inv_psi (1 <<< (k + 1 - 1)))) constants.p

theorem ScaleRight.kept {after : Block} (right : ScaleRight algo constants k v block)
    (same : ∀ cell, Roots k cell → after.memory cell = block.memory cell) :
    ScaleRight algo constants k v after where
  twists := twists_kept right.twists same
  small := by
    rw [same _ (half_root .inv_psi)]
    exact right.small
  value := by
    rw [same _ (half_root .inv_psi)]
    exact right.value
  quotient := by
    rw [same _ (half_root .inv_psi), same _ (half_root .inv_psi_shoup)]
    exact right.quotient

theorem ScaleRight.halves (right : ScaleRight algo constants k v block) {team : List Nat}
    (inside : ∀ tid ∈ team, tid < 2 ^ k) :
    ScaleRight algo constants k v (lockstep team (halves constants.p (2 ^ k)) block) :=
  right.kept fun _ root => lockstep_roots (owned_halves inside) root

/-- A thread of a team scales its two words by the inverse of the length and powers of the root. -/
theorem scale_words (modulus : Modulus constants.p) (right : constants.Right) (narrow : k < 32)
    (ready : ScaleRight algo constants k v block) {team : List Nat} (once : team.Nodup)
    (inside : ∀ tid ∈ team, tid < 2 ^ k) {i : Nat} (listed : i / 2 ∈ team)
    (word : block.memory (.shared i) < constants.p) :
    (lockstep team (backward_negacyclic_scale_1D algo constants (2 ^ k) (k + 1)) block).memory
        (.shared i) < constants.p ∧
      ((lockstep team (backward_negacyclic_scale_1D algo constants (2 ^ k) (k + 1)) block).memory
        (.shared i) : ZMod constants.p) =
          block.memory (.shared i) * (shortCount constants k * v ^ i) := by
  have owned := @owned_backward_scale algo k _ inside constants
  have bound := inside _ listed
  have twists := ready.twists
  obtain ⟨root_shoup, prepared, first, second⟩ :=
    @alone_backward_scale algo (i / 2) block constants (2 ^ k) (k + 1)
  have index := BitReversal.reverse_lt k (i / 2)
  rw [pos1_eq narrow bound] at first second
  have power : (v ^ 2) ^ reverse k (reverse k (i / 2)) = v ^ (2 * (i / 2)) := by
    rw [BitReversal.reverse_reverse bound, ← pow_mul]
  have aux := twists.value _ index
  rw [power] at aux
  obtain ⟨auxSmall, auxValue⟩ := @factor_right constants k modulus right _ (twists.small _ index)
  obtain ⟨aux2Small, aux2Value⟩ := modmult_right modulus auxSmall ready.small fun chosen =>
    (prepared chosen).trans ready.quotient
  have double : (i / 2) <<< 1 = 2 * (i / 2) := by rw [Nat.shiftLeft_eq, pow_one, Nat.mul_comm]
  rcases Nat.mod_two_eq_zero_or_one i with even | odd
  · have place : i = (i / 2) <<< 1 := by omega
    obtain ⟨small, value⟩ := @modmult_right .barrett constants.p modulus _ _ 0 word auxSmall
      fun same => nomatch same
    have result := @lockstep_mine k block 1 (i / 2) _ team once owned listed _
      (mine_shift inside listed)
    rw [first, ← place] at result
    rw [result]
    refine ⟨small, ?_⟩
    rw [value, auxValue, aux, show 2 * (i / 2) = i by omega]
    ring
  · have place : i = ((i / 2) <<< 1) + 1 := by omega
    obtain ⟨small, value⟩ := @modmult_right .barrett constants.p modulus _ _ 0 word aux2Small
      fun same => nomatch same
    have result := @lockstep_mine k block 1 (i / 2) _ team once owned listed _
      (mine_shift_succ inside listed)
    rw [second, ← place] at result
    rw [result]
    refine ⟨small, ?_⟩
    have last : v ^ i = v ^ (2 * (i / 2)) * v := by
      rw [← pow_succ]
      congr 1
    rw [value, aux2Value, auxValue, aux, ready.value, last]
    ring

/-- All threads together scale the whole limb. -/
theorem holds_backward_scale (modulus : Modulus constants.p) (right : constants.Right)
    (narrow : k < 32) (holds : Holds constants.p k block y)
    (ready : ScaleRight algo constants k v block) :
    Holds constants.p k (lockstep (List.range (2 ^ k))
      (backward_negacyclic_scale_1D algo constants (2 ^ k) (k + 1)) block)
        fun i => y i * (shortCount constants k * v ^ i) := by
  have each (i : Nat) (inside : i < 2 * 2 ^ k) :=
    @scale_words algo constants k block v modulus right narrow ready _ List.nodup_range
      (range_inside (2 ^ k)) i (List.mem_range.mpr (Nat.div_lt_of_lt_mul inside))
        (holds.small i inside)
  refine ⟨fun i inside => (each i inside).1, fun i inside => ?_⟩
  rw [(each i inside).2, holds.value i inside]

/-- The inverse kernel comes to its last level behind a barrier. -/
def innerPart (algo : ALGO) (constants : Constants) (k dat : Nat) : Code Nat Cell :=
  load_psi algo (2 ^ k) .inv_psi .inv_psi_shoup ++ copy (.limb dat) .shared ++ [syncthreads] ++
    backwardLevels (INTT_round algo constants (2 ^ k)) k k ++ [syncthreads]

/-- No barrier stands in this part. -/
def lastPart (algo : ALGO) (constants : Constants) (k : Nat) : Code Nat Cell :=
  halves constants.p (2 ^ k) ++ backward_negacyclic_scale_1D algo constants (2 ^ k) (k + 1)

theorem INTT_1D_parts (dat res : Nat) :
    INTT_1D_ algo constants (2 ^ k) dat res = innerPart algo constants k dat ++
      (lastPart algo constants k ++ ([syncthreads] ++ copy .shared (.limb res))) := by
  rw [INTT_1D_eq, innerPart, lastPart]
  simp only [List.append_assoc]

/-- Before the last level the words are those of the levels below it. -/
theorem lockstep_innerPart (modulus : Modulus constants.p) (short : k + 1 ≤ constants.logN)
    (limb : HoldsLimb constants.p k dat block.memory x)
    (powers : Powers constants.p constants.logN root .inv_psi .inv_psi_shoup
      (tableWords block)) :
    Holds constants.p k (lockstep (List.range (2 ^ k)) (innerPart algo constants k dat) block)
        (innerLevels (fun i => (shortRoot root constants.logN k ^ 2) ^ reverse k i) k x) ∧
      ScaleRight algo constants k (shortRoot root constants.logN k)
        (lockstep (List.range (2 ^ k)) (innerPart algo constants k dat) block) := by
  simp only [innerPart]
  rw [lockstep_append, lockstep_append, lockstep_append, lockstep_syncthreads, lockstep_syncthreads]
  have loaded := @holds_load algo constants.p k block dat x limb .inv_psi .inv_psi_shoup
  have twists := @twists_load algo constants.p constants.logN k block root .inv_psi .inv_psi_shoup
    dat powers short
  have tables := powers
  rw [← @tableWords_load algo k block dat .inv_psi .inv_psi_shoup,
    ← @tableWords_rounds algo constants k _ k le_rfl] at tables
  refine ⟨holds_backwardLevels modulus (le_refl k) loaded twists, ?_⟩
  exact ⟨twists_kept twists fun cell root => backwardLevels_roots k le_rfl root,
    tables.small _ (half_below short), tables.half short,
      tables.quotient _ (half_below short)⟩

/-- Side by side, the threads of the inverse kernel leave the inverse transform of their limb. -/
theorem lockstep_INTT_1D (modulus : Modulus constants.p) (right : constants.Right)
    (short : k + 1 ≤ constants.logN) (narrow : k < 32)
    (limb : HoldsLimb constants.p k dat block.memory x)
    (powers : Powers constants.p constants.logN root .inv_psi .inv_psi_shoup
      (tableWords block)) :
    HoldsLimb constants.p k res
      (lockstep (List.range (2 ^ k)) (INTT_1D_ algo constants (2 ^ k) dat res) block).memory
        (backward (shortRoot root constants.logN k) (shortCount constants k) k x) := by
  obtain ⟨inner, ready⟩ := @lockstep_innerPart algo constants k block dat root x modulus short limb
    powers
  rw [INTT_1D_parts, lockstep_append, lastPart, lockstep_append, lockstep_append, lockstep_append,
    lockstep_syncthreads]
  have whole := (holds_halves modulus inner).congr fun i inside =>
    (@whole_gsLevel (ZMod constants.p) _ (fun i => (shortRoot root constants.logN k ^ 2) ^ reverse k i)
      _ k twist_zero i inside).trans (congrFun (gsLevels_inner _ k x) i)
  have scaled := holds_backward_scale modulus right narrow whole (ready.halves (range_inside _))
  refine ⟨fun i inside => ?_, fun i inside => ?_⟩
  · rw [lockstep_return inside]
    exact scaled.small i inside
  · rw [lockstep_return inside]
    exact scaled.value i inside

end Backward

section Launches

variable {algo : ALGO} {q logN k fuel root dat res : Nat} {raw : Option Nat} {tables : Tables}
  {joined : Nat → Nat → Prop} {block : Block} {x : Nat → Nat}

/-- A block starts with the tables and with these words in a limb. -/
structure Starts (tables : Tables) (logN k dat : Nat) (x : Nat → Nat) (block : Block) : Prop where
  tables : HasTables tables logN (tableWords block)
  words : ∀ i < 2 * 2 ^ k, block.memory (.limb dat i) = x i

/-- A block is launched with the tables and with the words of a limb. -/
def launch (tables : Tables) (x : Nat → Nat) : Block where
  registers := fun _ _ => 0
  memory
    | .shared _ => 0
    | .limb _ i => x i
    | .table table i => (tables.read table i).toOption.getD 0

theorem starts_launch (tables : Tables) (logN k dat : Nat) (x : Nat → Nat) :
    Starts tables logN k dat x (launch tables x) where
  tables := by
    intro table i _ word read
    change (tables.read table i).toOption.getD 0 = word
    rw [read]
    rfl
  words := fun _ _ => rfl

theorem Starts.limb (starts : Starts tables logN k dat x block)
    (canonical : ∀ i < 2 * 2 ^ k, x i < q) :
    HoldsLimb q k dat block.memory fun i => (x i : ZMod q) := by
  refine ⟨fun i inside => ?_, fun i inside => ?_⟩
  · rw [starts.words i inside]
    exact canonical i inside
  · rw [starts.words i inside]

/-- A kernel may leave these words in a limb. -/
def Leaves (joined : Nat → Nat → Prop) (k : Nat) (code : Code Nat Cell) (res : Nat) (block : Block)
    (y : Nat → Nat) : Prop :=
  ∃ config : Config Nat Register Cell Nat, Reaches joined (List.range (2 ^ k)) code block config ∧
    config.Finished (List.range (2 ^ k)) code ∧ ∀ i < 2 * 2 ^ k, config.machine.memory (.limb res i) = y i

/-- A kernel without races leaves what its threads leave side by side. -/
theorem Leaves.lockstep {code : Code Nat Cell} {y : Nat → Nat} (free : RaceFree joined (List.range (2 ^ k)) code)
    (leaves : Leaves joined k code res block y) : ∀ i < 2 * 2 ^ k,
      (lockstep (List.range (2 ^ k)) code block).memory (.limb res i) = y i := by
  obtain ⟨config, reaches, finished, words⟩ := leaves
  intro i inside
  rw [← finished_memory List.nodup_range free reaches finished, words i inside]

theorem leaves_lockstep (joined : Nat → Nat → Prop) (code : Code Nat Cell) (res : Nat) (block : Block) :
    Leaves joined k code res block fun i =>
      (lockstep (List.range (2 ^ k)) code block).memory (.limb res i) := by
  obtain ⟨config, reaches, finished, same⟩ :=
    @reaches_finished _ _ _ _ _ _ _ joined (List.range (2 ^ k)) code List.nodup_range block
  exact ⟨config, reaches, finished, fun i _ => by rw [same]⟩

/-- A thread of a kernel reads a table up to the length of the limb. -/
def ReadsBelow (k : Nat) (code : Code Nat Cell) : Prop :=
  ∀ instruction ∈ code, ∀ tid < 2 ^ k, ∀ table i, instruction.reads tid (.table table i) →
    i < 2 * 2 ^ k

theorem ReadsBelow.append {first second : Code Nat Cell} (left : ReadsBelow k first)
    (right : ReadsBelow k second) : ReadsBelow k (first ++ second) :=
  fun instruction listed => (List.mem_append.mp listed).elim (left instruction) (right instruction)

theorem readsBelow_of_owned {own fixed : Nat → Cell → Prop} {code : Code Nat Cell}
    (owned : Owned (List.range (2 ^ k)) own fixed code)
    (below : ∀ tid table i, own tid (.table table i) ∨ fixed tid (.table table i) → i < 2 * 2 ^ k) :
    ReadsBelow k code :=
  fun instruction listed tid inside table i reads =>
    below tid table i (owned.reads instruction listed tid (List.mem_range.mpr inside) _ reads)

theorem readsBelow_mine {m : Nat} {code : Code Nat Cell}
    (owned : Owned (List.range (2 ^ k)) (Mine k m) (fun _ => Roots k) code) : ReadsBelow k code :=
  readsBelow_of_owned owned fun _ _ _ visible => visible.elim False.elim id

theorem readsBelow_barrier : ReadsBelow k [syncthreads] := by
  intro instruction listed tid _ table i reads
  obtain rfl := List.mem_singleton.mp listed
  exact reads.elim

theorem readsBelow_forwardLevels {p s : Nat} (order : s ≤ k) :
    ReadsBelow k (forwardLevels (NTT_round algo p (2 ^ k)) k s) := by
  induction s with
  | zero => exact fun _ listed => absurd listed List.not_mem_nil
  | succ s inductionHypothesis =>
      exact (readsBelow_mine (owned_NTT_round (range_inside _) (by omega) _)).append
        (inductionHypothesis (by omega))

theorem readsBelow_NTT_1D {p : Nat} : ReadsBelow k (NTT_1D_ algo p (2 ^ k) dat res) := by
  have inside := range_inside (2 ^ k)
  have loads := readsBelow_of_owned (@owned_load algo k dat _ inside .psi .psi_shoup)
    fun _ _ _ visible => visible.elim False.elim id
  have returns := readsBelow_of_owned (@owned_return k res _ inside)
    fun _ _ _ visible => visible.elim False.elim False.elim
  rw [NTT_1D_eq]
  exact (((((loads.append readsBelow_barrier).append
    (readsBelow_mine (owned_forward_scale inside))).append readsBelow_barrier).append
      (readsBelow_mine (owned_halves inside))).append (readsBelow_forwardLevels le_rfl)).append
        returns

variable (prime : q.Prime) (modulus : Modulus q) (congruent : q % 2 ^ (logN + 1) = 1)
  (int : logN < 31) (short : k + 1 ≤ logN)
  (built : setup (2 ^ logN) q .U64 fuel raw = some (.ok (root, tables)))

include prime modulus congruent int short built

/-- Each schedule of the forward kernel leaves the transform. -/
theorem forward_of_leaves {y : Nat → Nat} (starts : Starts tables logN k dat x block)
    (canonical : ∀ i < 2 * 2 ^ k, x i < q)
    (leaves : Leaves joined k (NTT_1D_ algo q (2 ^ k) dat res) res block y) :
    ∀ i < 2 * 2 ^ k, y i < q ∧
      (y i : ZMod q) = forward (shortRoot (root : ZMod q) logN k) k (fun i => (x i : ZMod q)) i := by
  have powers := (powers_of_setup prime congruent int built starts.tables).1
  have limb := @lockstep_NTT_1D algo q logN k block root dat res _ modulus short (by omega)
    (starts.limb canonical) powers
  intro i inside
  have word := leaves.lockstep (raceFree_NTT_1D dat res) i inside
  rw [← word]
  exact ⟨limb.small i inside, limb.value i inside⟩

/-- However the threads of the forward kernel interleave, they finish, they leave the transform in
reversed order, and they read the tables up to the length of the limb. -/
structure Transforms (algo : ALGO) (joined : Nat → Nat → Prop) (q logN k root dat res : Nat)
    (block : Block) (x : Nat → Nat) : Prop where
  finishes : ∀ config, Reaches joined (List.range (2 ^ k)) (NTT_1D_ algo q (2 ^ k) dat res) block config →
    ∃ last, Run (Step joined (List.range (2 ^ k)) (NTT_1D_ algo q (2 ^ k) dat res)) (fun _ _ => True) config
      last ∧ last.Finished (List.range (2 ^ k)) (NTT_1D_ algo q (2 ^ k) dat res)
  values : ∀ y, Leaves joined k (NTT_1D_ algo q (2 ^ k) dat res) res block y →
    ∀ j < 2 ^ (k + 1), y (reverse (k + 1) j) < q ∧
      (y (reverse (k + 1) j) : ZMod q) = ∑ i ∈ Finset.range (2 ^ (k + 1)),
        (x i : ZMod q) * ((root : ZMod q) ^ (2 ^ logN / 2 ^ (k + 1))) ^ ((2 * j + 1) * i)
  reads : ReadsBelow k (NTT_1D_ algo q (2 ^ k) dat res)

theorem NTT_1D_transforms (algo : ALGO) (joined : Nat → Nat → Prop) (dat res : Nat)
    (starts : Starts tables logN k dat x block) (canonical : ∀ i < 2 * 2 ^ k, x i < q) :
    Transforms algo joined q logN k root dat res block x := by
  refine ⟨fun _ reaches => finishes reaches, ?_, readsBelow_NTT_1D⟩
  intro y leaves j below
  have inside := BitReversal.reverse_lt (k + 1) j
  obtain ⟨small, value⟩ := forward_of_leaves prime modulus congruent int short built starts canonical
    leaves (reverse (k + 1) j) (by rwa [← pow_succ'])
  refine ⟨small, ?_⟩
  have half := shortRoot_half prime congruent int built short
  rw [value, forward_sum half _ inside, transform, BitReversal.reverse_reverse below,
    Nat.pow_div short two_pos]
  rfl

omit prime modulus congruent int short built in
theorem NTT_1D_transforms_seventeen :
    ∃ root tables, setup (2 ^ 3) 17 .U64 (2 ^ 64) none = some (.ok (root, tables)) ∧
      Transforms .shoup (fun _ _ => False) 17 3 2 root 0 1 (launch tables fun i => i) fun i => i := by
  obtain ⟨root, tables, built⟩ := @exists_setup 17 3 (by norm_num) (by decide) (by decide)
    (by decide)
  exact ⟨root, tables, built, NTT_1D_transforms (by norm_num) ⟨by decide, by decide⟩ (by decide)
    (by decide) (by decide) built .shoup _ 0 1 (starts_launch tables 3 2 0 _)
      (fun i inside => inside.trans (by decide))⟩

end Launches

end Fideslib.OnePass
