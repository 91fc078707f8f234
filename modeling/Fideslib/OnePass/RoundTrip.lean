/-
This file decides which schedules of the inverse kernel return the limb that they began with.
-/

import Fideslib.OnePass.Contract

namespace Fideslib.OnePass

open Fideslib.Modular ThreadBlock NegacyclicTransform Butterflies
open BitReversal (reverse)
open StateMachine (Computes undoes_iff undoes_words_iff)
open Twiddles

section Groups

variable {algo : ALGO} {constants : Constants} {k e dat res : Nat}

/-- Neighbouring threads of a group move together. -/
def groups (e tid other : Nat) : Prop := tid / 2 ^ e = other / 2 ^ e

theorem writesOnce_backwardLevels {s : Nat} (order : s ≤ k) :
    WritesOnce (List.range (2 ^ k)) (backwardLevels (INTT_round algo constants (2 ^ k)) k s) := by
  induction s with
  | zero => exact fun _ listed => absurd listed List.not_mem_nil
  | succ s inductionHypothesis =>
      exact (inductionHypothesis (by omega)).append
        ((owned_INTT_round (range_inside _) constants (by omega) _).single exclusive_mine)

theorem writesOnce_barrier {team : List Nat} : WritesOnce team [syncthreads] := by
  intro instruction listed tid _ other _ _ cell writes
  obtain rfl := List.mem_singleton.mp listed
  exact writes.elim

/-- The threads of one group have no races in the inverse kernel. -/
theorem raceFree_INTT_1D (together : k ≤ e) :
    RaceFree (groups e) (List.range (2 ^ k)) (INTT_1D_ algo constants (2 ^ k) dat res) := by
  have inside := range_inside (2 ^ k)
  have one {tid : Nat} (bound : tid < 2 ^ k) : tid / 2 ^ e = 0 :=
    Nat.div_eq_of_lt (bound.trans_le (Nat.pow_le_pow_right two_pos together))
  have loads := (@owned_load algo k dat _ inside .inv_psi .inv_psi_shoup).single
    (exclusive_brings inside)
  have sums := (@owned_halves constants.p k _ inside).single exclusive_mine
  have scale := (@owned_backward_scale algo k _ inside constants).single exclusive_mine
  have returns := (@owned_return k res _ inside).single exclusive_returns
  have levels := @writesOnce_backwardLevels algo constants k k le_rfl
  have stops := @writesOnce_barrier (List.range (2 ^ k))
  have once : WritesOnce (List.range (2 ^ k)) (INTT_1D_ algo constants (2 ^ k) dat res) := by
    rw [INTT_1D_eq]
    exact (((((((loads.append stops).append levels).append stops).append sums).append scale).append
      stops).append returns)
  have apart : Apart (groups e) (List.range (2 ^ k)) History.empty
      (INTT_1D_ algo constants (2 ^ k) dat res) :=
    apart_of_joined (fun tid bound other near =>
      (one (inside tid bound)).trans (one (inside other near)).symm) once
  exact apart.raceFree

end Groups

section Ahead

variable {algo : ALGO} {constants : Constants} {p k : Nat} {block : Block} {v : ZMod constants.p}
  {team ahead behind : List Nat} {z : Nat → ZMod constants.p}

/-- Words whose owner is not in the team stay. -/
theorem halves_kept (inside : ∀ tid ∈ team, tid < 2 ^ k) {i : Nat} (absent : owner (2 ^ k) i ∉ team)
    (block : Block) :
    (lockstep team (halves p (2 ^ k)) block).memory (.shared i) = block.memory (.shared i) := by
  apply lockstep_frame (owned_halves inside)
  intro tid listed mine
  exact absent (mine.2 ▸ listed)

theorem scale_kept (inside : ∀ tid ∈ team, tid < 2 ^ k) {i : Nat} (absent : i / 2 ∉ team)
    (block : Block) :
    (lockstep team (backward_negacyclic_scale_1D algo constants (2 ^ k) (k + 1)) block).memory
      (.shared i) = block.memory (.shared i) := by
  apply lockstep_frame (owned_backward_scale inside constants)
  intro tid listed mine
  apply absent
  have same : owner 1 i = i / 2 := by
    unfold owner
    omega
  rw [← same, mine.2]
  exact listed

/-- The shared words of the limb are canonical. -/
def Canonical (p k : Nat) (block : Block) : Prop := ∀ i < 2 * 2 ^ k, block.memory (.shared i) < p

theorem halves_canonical (modulus : Modulus p) (once : team.Nodup)
    (inside : ∀ tid ∈ team, tid < 2 ^ k) (canonical : Canonical p k block) :
    Canonical p k (lockstep team (halves p (2 ^ k)) block) := by
  intro i bound
  obtain ⟨tid, near, place⟩ := place_cases (le_refl k) bound
  rw [firstPlace_whole near, secondPlace_whole near] at place
  by_cases listed : tid ∈ team
  · obtain ⟨⟨sum, -⟩, difference, -⟩ := @halves_words p k block modulus team once inside tid listed
      (canonical tid (by omega)) (canonical (tid + 2 ^ k) (by omega))
    rcases place with rfl | rfl
    · exact sum
    · exact difference
  · have own : owner (2 ^ k) i = tid := by
      rcases place with rfl | rfl
      · rw [← firstPlace_whole near, owner_first (Nat.two_pow_pos k), firstPlace_whole near]
      · rw [← secondPlace_whole near, owner_second (Nat.two_pow_pos k)]
    rw [halves_kept inside (own ▸ listed)]
    exact canonical i bound

section Scale

variable (modulus : Modulus constants.p) (right : constants.Right) (narrow : k < 32)
  (ready : ScaleRight algo constants k v block)

include modulus right narrow ready

theorem scale_canonical (once : team.Nodup) (inside : ∀ tid ∈ team, tid < 2 ^ k)
    (canonical : Canonical constants.p k block) :
    Canonical constants.p k (lockstep team
      (backward_negacyclic_scale_1D algo constants (2 ^ k) (k + 1)) block) := by
  intro i bound
  by_cases listed : i / 2 ∈ team
  · exact (@scale_words algo constants k block v modulus right narrow ready team once inside i listed
      (canonical i bound)).1
  · rw [scale_kept inside listed]
    exact canonical i bound

theorem lastPart_canonical (once : team.Nodup) (inside : ∀ tid ∈ team, tid < 2 ^ k)
    (canonical : Canonical constants.p k block) :
    Canonical constants.p k (lockstep team (lastPart algo constants k) block) := by
  rw [lastPart, lockstep_append]
  exact scale_canonical modulus right narrow (ready.halves inside) once inside
    (halves_canonical modulus once inside canonical)

omit modulus right narrow ready in
theorem lastPart_ready (inside : ∀ tid ∈ team, tid < 2 ^ k)
    (ready : ScaleRight algo constants k v block) :
    ScaleRight algo constants k v (lockstep team (lastPart algo constants k) block) := by
  rw [lastPart, lockstep_append]
  exact (ready.halves inside).kept fun _ root =>
    lockstep_roots (owned_backward_scale inside constants) root

/-- A word that the team does not own at the last level may be scaled before that level. -/
theorem lastPart_scaled (once : team.Nodup) (inside : ∀ tid ∈ team, tid < 2 ^ k) {i : Nat}
    (absent : owner (2 ^ k) i ∉ team) (listed : i / 2 ∈ team)
    (word : block.memory (.shared i) < constants.p) :
    ((lockstep team (lastPart algo constants k) block).memory (.shared i) : ZMod constants.p) =
      block.memory (.shared i) * (shortCount constants k * v ^ i) := by
  have kept := @halves_kept constants.p k team inside i absent block
  have scaled := @scale_words algo constants k _ v modulus right narrow (ready.halves inside) team
    once inside i listed
  rw [kept] at scaled
  rw [lastPart, lockstep_append]
  exact (scaled word).2

end Scale

theorem lastPart_kept (inside : ∀ tid ∈ team, tid < 2 ^ k) {i : Nat}
    (absent : owner (2 ^ k) i ∉ team) (unscaled : i / 2 ∉ team) :
    (lockstep team (lastPart algo constants k) block).memory (.shared i) =
      block.memory (.shared i) := by
  rw [lastPart, lockstep_append, scale_kept inside unscaled, halves_kept inside absent]

section Halves

variable (modulus : Modulus constants.p) (once : team.Nodup) (inside : ∀ tid ∈ team, tid < 2 ^ k)
  {tid : Nat} (listed : tid ∈ team) (left : block.memory (.shared tid) < constants.p)
  (right : block.memory (.shared (tid + 2 ^ k)) < constants.p)

include modulus once inside listed left right

theorem lastPart_sum (unscaled : tid / 2 ∉ team) :
    ((lockstep team (lastPart algo constants k) block).memory (.shared tid) : ZMod constants.p) =
      block.memory (.shared tid) + block.memory (.shared (tid + 2 ^ k)) := by
  rw [lastPart, lockstep_append, scale_kept inside unscaled]
  exact (halves_words modulus once inside listed left right).1.2

theorem lastPart_difference (unscaled : (tid + 2 ^ k) / 2 ∉ team) :
    ((lockstep team (lastPart algo constants k) block).memory (.shared (tid + 2 ^ k)) :
      ZMod constants.p) = block.memory (.shared tid) - block.memory (.shared (tid + 2 ^ k)) := by
  rw [lastPart, lockstep_append, scale_kept inside unscaled]
  exact (halves_words modulus once inside listed left right).2.2

end Halves

end Ahead

section Unordered

variable {algo : ALGO} {constants : Constants} {k e dat res : Nat} {block : Block}
  {root : ZMod constants.p} {x : Nat → ZMod constants.p}

/-- The last part waits for the threads of the same group only. -/
theorem lastPart_waits {joined : Nat → Nat → Prop} :
    ∀ instruction ∈ lastPart algo constants k, ∀ tid other,
      instruction.waits joined tid other → joined tid other := by
  intro instruction listed tid other waits
  cases instruction with
  | barrier stops =>
      exfalso
      revert listed
      simp only [lastPart, halves, backward_negacyclic_scale_1D, backward_factors, forShoup]
      split <;> simp
  | load register place => exact waits
  | assign register value => exact waits
  | store place value => exact waits

/-- Some threads may go through the last part before all others do. -/
theorem leaves_ahead {joined : Nat → Nat → Prop} {ahead : Nat → Prop} [DecidablePred ahead]
    (closed : ∀ tid < 2 ^ k, ∀ other < 2 ^ k, joined tid other → (ahead other ↔ ahead tid)) :
    Leaves joined k (INTT_1D_ algo constants (2 ^ k) dat res) res block fun i =>
      (lockstep ((List.range (2 ^ k)).filter fun tid => ¬ahead tid) (lastPart algo constants k)
        (lockstep ((List.range (2 ^ k)).filter ahead) (lastPart algo constants k)
          (lockstep (List.range (2 ^ k)) (innerPart algo constants k dat) block))).memory
            (.shared i) := by
  obtain ⟨config, reaches, finished, last⟩ := reaches_ahead List.nodup_range block
    (INTT_1D_parts dat res) fun instruction listed tid inside other near waits =>
      closed tid (List.mem_range.mp inside) other (List.mem_range.mp near)
        (lastPart_waits instruction listed tid other waits)
  refine ⟨config, reaches, finished, fun i inside => ?_⟩
  rw [last, lockstep_append, lockstep_syncthreads, lockstep_return inside]

end Unordered

section Halves

variable {algo : ALGO} {constants : Constants} {k j : Nat} {block : Block} {ahead behind : List Nat}
  {v u : ZMod constants.p} (modulus : Modulus constants.p) (right : constants.Right)
  (narrow : k < 32) (double : 2 ^ k = 2 * 2 ^ j) (inner : Holds constants.p k block fun _ => u)
  (ready : ScaleRight algo constants k v block) (onceAhead : ahead.Nodup)
  (insideAhead : ∀ tid ∈ ahead, tid < 2 ^ k) (onceBehind : behind.Nodup)
  (insideBehind : ∀ tid ∈ behind, tid < 2 ^ k)

include modulus right narrow double inner ready onceAhead insideAhead onceBehind insideBehind

/-- The upper half of the threads scales a word before the lower half subtracts it. -/
theorem upper_ahead (zeroAhead : 0 ∉ ahead) (halfAhead : 2 ^ j ∈ ahead) (zeroBehind : 0 ∈ behind)
    (halfBehind : 2 ^ j ∉ behind) :
    ((lockstep behind (lastPart algo constants k) (lockstep ahead (lastPart algo constants k)
      block)).memory (.shared (2 ^ k)) : ZMod constants.p) =
        u - u * (shortCount constants k * v ^ 2 ^ k) := by
  have positive := Nat.two_pow_pos k
  have half : 2 ^ k / 2 = 2 ^ j := by omega
  have ownFirst : owner (2 ^ k) 0 = 0 := by
    rw [owner, Nat.zero_div, Nat.zero_mod, Nat.zero_mul]
  have ownSecond : owner (2 ^ k) (2 ^ k) = 0 := by
    rw [owner, Nat.div_eq_of_lt (by omega), Nat.mod_self, Nat.zero_mul]
  have canonical := lastPart_canonical modulus right narrow ready onceAhead insideAhead inner.small
  have first := @lastPart_kept algo constants k block ahead insideAhead 0
    (by rw [ownFirst]; exact zeroAhead) zeroAhead
  have second := @lastPart_scaled algo constants k block v ahead modulus right narrow ready onceAhead
    insideAhead (2 ^ k) (by rw [ownSecond]; exact zeroAhead) (by rw [half]; exact halfAhead)
      (inner.small (2 ^ k) (by omega))
  have last := @lastPart_difference algo constants k _ behind modulus onceBehind insideBehind 0
    zeroBehind (canonical 0 (by omega)) (canonical (0 + 2 ^ k) (by omega))
      (by rw [Nat.zero_add, half]; exact halfBehind)
  rw [Nat.zero_add, first, second, inner.value 0 (by omega), inner.value _ (by omega)] at last
  exact last

/-- The lower half of the threads scales a word before the upper half adds to it. -/
theorem lower_ahead (quarterAhead : 2 ^ j / 2 ∈ ahead) (upper : ∀ tid ∈ ahead, tid < 2 ^ j)
    (halfBehind : 2 ^ j ∈ behind) (quarterBehind : 2 ^ j / 2 ∉ behind) :
    ((lockstep behind (lastPart algo constants k) (lockstep ahead (lastPart algo constants k)
      block)).memory (.shared (2 ^ j)) : ZMod constants.p) =
        u * (shortCount constants k * v ^ 2 ^ j) + u := by
  have positive := Nat.two_pow_pos j
  have near : 2 ^ j < 2 ^ k := by omega
  have ownFirst : owner (2 ^ k) (2 ^ j) = 2 ^ j := by
    have own := owner_first (Nat.two_pow_pos k) (2 ^ j)
    rwa [firstPlace_whole near] at own
  have ownSecond : owner (2 ^ k) (2 ^ j + 2 ^ k) = 2 ^ j := by
    have own := owner_second (Nat.two_pow_pos k) (2 ^ j)
    rwa [secondPlace_whole near] at own
  have absent (tid : Nat) (far : 2 ^ j ≤ tid) : tid ∉ ahead := fun listed =>
    absurd (upper tid listed) (Nat.not_lt.mpr far)
  have canonical := lastPart_canonical modulus right narrow ready onceAhead insideAhead inner.small
  have first := @lastPart_scaled algo constants k block v ahead modulus right narrow ready onceAhead
    insideAhead (2 ^ j) (by rw [ownFirst]; exact absent _ le_rfl) quarterAhead
      (inner.small (2 ^ j) (by omega))
  have second := @lastPart_kept algo constants k block ahead insideAhead (2 ^ j + 2 ^ k)
    (by rw [ownSecond]; exact absent _ le_rfl) (absent _ (by omega))
  have last := @lastPart_sum algo constants k _ behind modulus onceBehind insideBehind (2 ^ j)
    halfBehind (canonical (2 ^ j) (by omega)) (canonical (2 ^ j + 2 ^ k) (by omega)) quarterBehind
  rw [first, second, inner.value _ (by omega), inner.value _ (by omega)] at last
  exact last

end Halves

section Wrong

variable {algo : ALGO} {constants : Constants} {k e dat res : Nat} {block : Block}
  {root u : ZMod constants.p} {x : Nat → ZMod constants.p}

/-- The inverse of words that agree before the last level. -/
theorem backward_constant {v c : ZMod constants.p}
    (agree : ∀ i < 2 * 2 ^ k, innerLevels (fun i => (v ^ 2) ^ reverse k i) k x i = u) :
    (∀ i < 2 ^ k, backward v c k x i = (u + u) * (c * v ^ i)) ∧ backward v c k x (2 ^ k) = 0 := by
  have positive := Nat.two_pow_pos k
  have first (i : Nat) (inside : i < 2 ^ k) := gsLevel_first (fun i => (v ^ 2) ^ reverse k i)
    (innerLevels (fun i => (v ^ 2) ^ reverse k i) k x) 0 positive inside
  have second := gsLevel_second (fun i => (v ^ 2) ^ reverse k i)
    (innerLevels (fun i => (v ^ 2) ^ reverse k i) k x) 0 positive
  simp only [Nat.zero_mul, Nat.zero_add, Nat.add_zero, gsLevels_inner] at first second
  refine ⟨fun i inside => ?_, ?_⟩
  · rw [backward, first i inside, agree i (by omega), agree (2 ^ k + i) (by omega)]
  · rw [backward, second, agree 0 (by omega), agree (2 ^ k) (by omega), sub_self, zero_mul, zero_mul]

/-- Some schedule leaves canonical words that are not the inverse transform. -/
theorem exists_wrong (prime : constants.p.Prime) (modulus : Modulus constants.p)
    (right : constants.Right) (narrow : k < 32) (short : k + 1 ≤ constants.logN)
    (limb : HoldsLimb constants.p k dat block.memory x)
    (powers : Powers constants.p constants.logN root .inv_psi .inv_psi_shoup (tableWords block))
    (turn : shortRoot root constants.logN k ^ 2 ^ (k + 1) = -1) (odd : constants.p ≠ 2)
    (apart : e < k) (nonzero : u ≠ 0)
    (agree : ∀ i < 2 * 2 ^ k,
      innerLevels (fun i => (shortRoot root constants.logN k ^ 2) ^ reverse k i) k x i = u) :
    ∃ words, Leaves (groups e) k (INTT_1D_ algo constants (2 ^ k) dat res) res block words ∧
      (∀ i < 2 * 2 ^ k, words i < constants.p) ∧ ∃ i < 2 * 2 ^ k, (words i : ZMod constants.p) ≠
        backward (shortRoot root constants.logN k) (shortCount constants k) k x i := by
  have isPrime : Fact constants.p.Prime := ⟨prime⟩
  obtain ⟨j, rfl⟩ : ∃ j, k = j + 1 := ⟨k - 1, by omega⟩
  have double : 2 ^ (j + 1) = 2 * 2 ^ j := pow_succ' 2 j
  have positive := Nat.two_pow_pos j
  obtain ⟨inner, ready⟩ := @lockstep_innerPart algo constants (j + 1) block dat root x modulus short
    limb powers
  have holds := inner.congr agree
  obtain ⟨sums, zero⟩ := @backward_constant constants (j + 1) u x _ (shortCount constants (j + 1))
    agree
  -- Groups of this size do not cross the middle of the block.
  have closed (tid other : Nat) (same : groups e tid other) : tid / 2 ^ j = other / 2 ^ j := by
    have part : 2 ^ j = 2 ^ e * 2 ^ (j - e) := by rw [← pow_add]; congr 1; omega
    rw [part, ← Nat.div_div_eq_div_mul, ← Nat.div_div_eq_div_mul, same]
  have upper (tid other : Nat) (same : groups e tid other) : 2 ^ j ≤ other ↔ 2 ^ j ≤ tid := by
    have some_ (number : Nat) : 2 ^ j ≤ number ↔ 0 < number / 2 ^ j :=
      ⟨fun far => Nat.div_pos far positive, fun far => (Nat.div_pos_iff.mp far).2⟩
    rw [some_, some_, closed tid other same]
  have once (team : Nat → Bool) : ((List.range (2 ^ (j + 1))).filter team).Nodup :=
    List.nodup_range.filter _
  have inside (team : Nat → Bool) :
      ∀ tid ∈ (List.range (2 ^ (j + 1))).filter team, tid < 2 ^ (j + 1) :=
    fun tid listed => List.mem_range.mp (List.mem_filter.mp listed).1
  have canonical (first second : Nat → Bool) := lastPart_canonical modulus right narrow
    (lastPart_ready (inside first) ready) (once second) (inside second)
      (lastPart_canonical modulus right narrow ready (once first) (inside first) holds.small)
  have range {tid : Nat} (bound : tid < 2 ^ (j + 1)) := List.mem_range.mpr bound
  by_cases one : shortCount constants (j + 1) * shortRoot root constants.logN (j + 1) ^ 2 ^ (j + 1) = 1
  · have other : shortCount constants (j + 1) *
        shortRoot root constants.logN (j + 1) ^ 2 ^ j ≠ 1 := by
      intro again
      apply odd
      rw [double, two_mul, pow_add, ← mul_assoc, again, one_mul] at one
      rw [pow_succ, pow_succ, pow_mul, pow_mul, one, one_pow, one_pow] at turn
      have two : ((2 : Nat) : ZMod constants.p) = 0 := by
        rw [Nat.cast_ofNat]
        linear_combination turn
      exact (Nat.prime_dvd_prime_iff_eq prime Nat.prime_two).mp
        ((ZMod.natCast_eq_zero_iff 2 _).mp two)
    refine ⟨_, @leaves_ahead algo constants (j + 1) dat res block (groups e) (fun tid => tid < 2 ^ j) _
      (fun tid _ other _ same => by
        have split := upper tid other same
        omega), canonical _ _, 2 ^ j, by omega, ?_⟩
    have word := lower_ahead modulus right narrow double holds ready (once fun tid => tid < 2 ^ j)
      (inside _) (once fun tid => ¬tid < 2 ^ j) (inside _)
      (List.mem_filter.mpr ⟨range (by omega), decide_eq_true (by omega)⟩)
      (fun tid listed => of_decide_eq_true (List.mem_filter.mp listed).2)
      (List.mem_filter.mpr ⟨range (by omega), decide_eq_true (lt_irrefl _)⟩)
      (fun listed => (of_decide_eq_true (List.mem_filter.mp listed).2 : ¬_) (by omega))
    rw [word, sums _ (by omega)]
    intro same
    apply other
    apply mul_left_cancel₀ nonzero
    linear_combination -same
  · refine ⟨_, @leaves_ahead algo constants (j + 1) dat res block (groups e) (fun tid => 2 ^ j ≤ tid) _
      (fun tid _ other _ same => upper tid other same), canonical _ _, 2 ^ (j + 1), by omega, ?_⟩
    have word := upper_ahead modulus right narrow double holds ready (once fun tid => 2 ^ j ≤ tid)
      (inside _) (once fun tid => ¬2 ^ j ≤ tid) (inside _)
      (fun listed => by
        have far : 2 ^ j ≤ 0 := of_decide_eq_true (List.mem_filter.mp listed).2
        omega)
      (List.mem_filter.mpr ⟨range (by omega), decide_eq_true le_rfl⟩)
      (List.mem_filter.mpr ⟨range (by omega), decide_eq_true (by omega)⟩)
      (fun listed => (of_decide_eq_true (List.mem_filter.mp listed).2 : ¬_) le_rfl)
    rw [word, zero]
    intro same
    apply one
    apply mul_left_cancel₀ nonzero
    linear_combination -same

end Wrong

section Inverse

variable {algo : ALGO} {q logN k e fuel root : Nat} {raw : Option Nat} {tables : Tables}
  {joined : Nat → Nat → Prop} {x y z : Nat → Nat}

/-- A launch of a kernel may turn these words of one limb into those of another one. -/
def Turns (joined : Nat → Nat → Prop) (tables : Tables) (logN k : Nat) (kernel : Nat → Nat → Code Nat Cell)
    (x y : Nat → Nat) : Prop :=
  ∃ dat res block, Starts tables logN k dat x block ∧
    Leaves joined k (kernel dat res) res block y

/-- Whatever the schedules, the second kernel returns the words that the first one has turned. -/
def Undoes (joined : Nat → Nat → Prop) (tables : Tables) (q logN k : Nat)
    (first second : Nat → Nat → Code Nat Cell) : Prop :=
  ∀ x y z, (∀ i < 2 * 2 ^ k, x i < q) → Turns joined tables logN k first x y →
    Turns joined tables logN k second y z → ∀ i < 2 * 2 ^ k, z i = x i

theorem exists_turns (joined : Nat → Nat → Prop) (tables : Tables) (logN k : Nat)
    (kernel : Nat → Nat → Code Nat Cell) (x : Nat → Nat) : ∃ y, Turns joined tables logN k kernel x y :=
  ⟨_, 0, 1, launch tables x, starts_launch tables logN k 0 x,
    leaves_lockstep joined (kernel 0 1) 1 _⟩

variable (prime : q.Prime) (modulus : Modulus q) (congruent : q % 2 ^ (logN + 1) = 1)
  (int : logN < 31) (short : k + 1 ≤ logN)
  (built : setup (2 ^ logN) q .U64 fuel raw = some (.ok (root, tables)))

include prime modulus congruent int short built

theorem forward_of_turns (canonical : ∀ i < 2 * 2 ^ k, x i < q)
    (turns : Turns joined tables logN k (NTT_1D_ algo q (2 ^ k)) x y) :
    ∀ i < 2 * 2 ^ k, y i < q ∧
      (y i : ZMod q) =
        forward (shortRoot (root : ZMod q) logN k) k (fun i => (x i : ZMod q)) i := by
  obtain ⟨dat, res, block, starts, leaves⟩ := turns
  exact forward_of_leaves prime modulus congruent int short built starts canonical leaves

/-- In one group each schedule of the inverse kernel leaves the inverse transform. -/
theorem backward_of_turns (together : k ≤ e) (canonical : ∀ i < 2 * 2 ^ k, x i < q)
    (turns : Turns (groups e) tables logN k (INTT_1D_ algo (setupConstants q logN) (2 ^ k)) x y) :
    ∀ i < 2 * 2 ^ k, y i < q ∧
      (y i : ZMod q) = backward (shortRoot ((modinv root q : Nat) : ZMod q) logN k)
        (setupCount q logN k) k (fun i => (x i : ZMod q)) i := by
  obtain ⟨dat, res, block, starts, leaves⟩ := turns
  have powers := (powers_of_setup prime congruent int built starts.tables).2
  have limb := @lockstep_INTT_1D algo (setupConstants q logN) k block dat res _ _ modulus
    (setupConstants_right prime congruent) short (by omega) (starts.limb canonical) powers
  intro i inside
  have word := leaves.lockstep (raceFree_INTT_1D together) i inside
  rw [← word]
  exact ⟨limb.small i inside, limb.value i inside⟩

/-- Where groups split a block, a schedule of the inverse kernel goes wrong on some words. -/
theorem leaves_wrong (algo : ALGO) (apart : e < k) :
    ∃ residues : Nat → ZMod q, ∀ dat res block x, Starts tables logN k dat x block →
      (∀ i < 2 * 2 ^ k, x i < q) → (∀ i < 2 * 2 ^ k, (x i : ZMod q) = residues i) →
        ∃ y, Leaves (groups e) k (INTT_1D_ algo (setupConstants q logN) (2 ^ k) dat res) res block y ∧
          (∀ i < 2 * 2 ^ k, y i < q) ∧ ∃ i < 2 * 2 ^ k, (y i : ZMod q) ≠
            backward (shortRoot ((modinv root q : Nat) : ZMod q) logN k)
              (setupCount q logN k) k residues i := by
  have isPrime : Fact q.Prime := ⟨prime⟩
  obtain ⟨j, rfl⟩ : ∃ j, k = j + 1 := ⟨k - 1, by omega⟩
  have inverse := @shortRoot_inverse q logN (j + 1) fuel root raw tables prime congruent int built
  have twists := @twist_inverse _ _ _ _ (j + 1) inverse 2
  have half := shortRoot_half prime congruent int built short
  have turn : shortRoot ((modinv root q : Nat) : ZMod q) logN (j + 1) ^ 2 ^ (j + 1 + 1) = -1 := by
    have power := pow_inverse inverse (2 ^ (j + 1 + 1))
    rw [half] at power
    linear_combination -power
  have two : ((2 : Nat) : ZMod q) ≠ 0 := by
    rw [Ne, ZMod.natCast_eq_zero_iff]
    exact fun divides => odd_of_congruent congruent
      ((Nat.prime_dvd_prime_iff_eq prime Nat.prime_two).mp divides)
  rw [Nat.cast_ofNat] at two
  have nonzero : (2 : ZMod q) ^ (j + 1) ≠ 0 := pow_ne_zero _ two
  refine ⟨ctLevels (fun b => (shortRoot (root : ZMod q) logN (j + 1) ^ 2) ^ reverse (j + 1) b) j
    fun _ => 1, fun dat res block x starts canonical same => ?_⟩
  have limb : HoldsLimb q (j + 1) dat block.memory _ := starts.limb canonical
  have agree (i : Nat) (inside : i < 2 * 2 ^ (j + 1)) :
      innerLevels (fun i => (shortRoot ((modinv root q : Nat) : ZMod q) logN (j + 1) ^ 2) ^
        reverse (j + 1) i) (j + 1) (fun i => (x i : ZMod q)) i = 2 ^ (j + 1) := by
    have levels := gsLevels_congr (fun i => (shortRoot ((modinv root q : Nat) : ZMod q) logN
      (j + 1) ^ 2) ^ reverse (j + 1) i) j (dvd_mul_left _ 2) same inside
    rw [gsLevels_ctLevels twists, mul_one] at levels
    exact levels
  obtain ⟨words, leaves, small, i, inside, wrong⟩ := @exists_wrong algo (setupConstants q logN)
    (j + 1) e dat res _ _ _ _ prime modulus (setupConstants_right prime congruent) (by omega) short
      limb (powers_of_setup prime congruent int built starts.tables).2 turn
        (odd_of_congruent congruent) apart nonzero agree
  refine ⟨words, leaves, small, i, inside, ?_⟩
  have equal := @backward_congr (ZMod q) _ (shortRoot ((modinv root q : Nat) : ZMod q) logN (j + 1))
    (setupCount q logN (j + 1)) (j + 1) _ _
      (fun i bound => same i (by rwa [← pow_succ'])) i (by rwa [pow_succ'])
  exact fun again => wrong (again.trans equal.symm)

/-- These words are canonical. -/
def Reduced (q k : Nat) (x : Nat → Nat) : Prop := ∀ i < 2 ^ (k + 1), x i < q

/-- A limb holds these residues. -/
def residues (q k : Nat) (x : Nat → Nat) (i : Fin (2 ^ (k + 1))) : ZMod q := x i

omit modulus congruent int short built in
theorem exists_words (held : Fin (2 ^ (k + 1)) → ZMod q) :
    ∃ x : Nat → Nat, Reduced q k x ∧ residues q k x = held := by
  have isPrime : Fact q.Prime := ⟨prime⟩
  refine ⟨fun i => if inside : i < 2 ^ (k + 1) then (held ⟨i, inside⟩).val else 0, ?_, ?_⟩
  · intro i inside
    beta_reduce
    rw [dif_pos inside]
    exact ZMod.val_lt _
  · funext i
    rw [residues, dif_pos i.isLt]
    exact ZMod.natCast_zmod_val _

theorem computes_forward :
    Computes (Reduced q k) (residues q k) (restricted (forward (shortRoot (root : ZMod q) logN k) k))
      (Turns joined tables logN k (NTT_1D_ algo q (2 ^ k))) := by
  intro x y canonical turns
  have words := forward_of_turns prime modulus congruent int short built
    (fun i inside => canonical i (by rwa [pow_succ'])) turns
  refine ⟨fun i inside => (words i (by rwa [← pow_succ'])).1, ?_⟩
  rw [show residues q k x = fun i : Fin (2 ^ (k + 1)) => (x i : ZMod q) from rfl,
    restricted_apply (local_forward _ k) fun i => (x i : ZMod q)]
  funext i
  exact (words i (by rw [← pow_succ']; exact i.isLt)).2

theorem computes_backward (together : k ≤ e) :
    Computes (Reduced q k) (residues q k) (restricted
      (backward (shortRoot ((modinv root q : Nat) : ZMod q) logN k) (setupCount q logN k) k))
        (Turns (groups e) tables logN k (INTT_1D_ algo (setupConstants q logN) (2 ^ k))) := by
  intro x y canonical turns
  have words := backward_of_turns prime modulus congruent int short built together
    (fun i inside => canonical i (by rwa [pow_succ'])) turns
  refine ⟨fun i inside => (words i (by rwa [← pow_succ'])).1, ?_⟩
  rw [show residues q k x = fun i : Fin (2 ^ (k + 1)) => (x i : ZMod q) from rfl,
    restricted_apply (local_backward _ _ k) fun i => (x i : ZMod q)]
  funext i
  exact (words i (by rw [← pow_succ']; exact i.isLt)).2

/-- The inverse kernel undoes the forward kernel exactly where all threads of the block are in one
group, and so does the forward kernel. -/
theorem kernels_undo_iff (algo : ALGO) (e : Nat) :
    (Undoes (groups e) tables q logN k (NTT_1D_ algo q (2 ^ k))
        (INTT_1D_ algo (setupConstants q logN) (2 ^ k)) ↔ k ≤ e) ∧
      (Undoes (groups e) tables q logN k (INTT_1D_ algo (setupConstants q logN) (2 ^ k))
        (NTT_1D_ algo q (2 ^ k)) ↔ k ≤ e) := by
  have forward_ := @computes_forward algo q logN k fuel root raw tables (groups e) prime modulus
    congruent int short built
  have backward_ (together : k ≤ e) := @computes_backward algo q logN k e fuel root raw tables prime
    modulus congruent int short built together
  have both := undoes_iff forward_
    (fun x _ => exists_turns (groups e) tables logN k (NTT_1D_ algo q (2 ^ k)) x)
    (restricted_inverse (local_backward _ _ k) (backward_turned prime congruent int built short))
    (restricted_inverse (local_forward _ k) (forward_turned prime congruent int built short))
    (exists_words prime) backward_ fun apart => by
      obtain ⟨held, wrong⟩ := leaves_wrong prime modulus congruent int short built algo
        (not_le.mp apart)
      refine ⟨fun i => held i, fun x canonical same => ?_⟩
      obtain ⟨y, leaves, small, i, inside, differs⟩ := wrong 0 1 _ x
        (starts_launch tables logN k 0 x) (fun i inside => canonical i (by rwa [pow_succ']))
          fun i inside => congrFun same ⟨i, by rwa [pow_succ']⟩
      refine ⟨y, ⟨0, 1, _, starts_launch tables logN k 0 x, leaves⟩,
        fun i inside => small i (by rwa [← pow_succ']), fun equal => differs ?_⟩
      rw [restricted_apply (local_backward _ _ k)] at equal
      exact congrFun equal ⟨i, by rwa [pow_succ']⟩
  have coarse (x y : Nat → Nat)
      (same : (fun i : Fin (2 ^ (k + 1)) => x i) = fun i : Fin (2 ^ (k + 1)) => y i) :
      residues q k x = residues q k y := by
    funext i
    rw [residues, residues, congrFun same i]
  have exact_ (x y : Nat → Nat) (left : Reduced q k x) (right : Reduced q k y)
      (same : residues q k x = residues q k y) :
      (fun i : Fin (2 ^ (k + 1)) => x i) = fun i : Fin (2 ^ (k + 1)) => y i := by
    funext i
    exact word_ext (left i i.isLt) (right i i.isLt) (congrFun same i)
  have words {first second : Nat → Nat → Code Nat Cell} {f g : (Fin (2 ^ (k + 1)) → ZMod q) → _}
      (there : k ≤ e → Computes (Reduced q k) (residues q k) f
        (Turns (groups e) tables logN k first))
      (back : k ≤ e → Computes (Reduced q k) (residues q k) g
        (Turns (groups e) tables logN k second))
      (undo : StateMachine.Undoes (Reduced q k) (residues q k) (Turns (groups e) tables logN k first)
        (Turns (groups e) tables logN k second) ↔ k ≤ e) :
      Undoes (groups e) tables q logN k first second ↔ k ≤ e := by
    rw [← undoes_words_iff coarse exact_ there back undo, Undoes, StateMachine.Undoes]
    refine forall_congr' fun x => forall_congr' fun y => forall_congr' fun z => ?_
    rw [Reduced, pow_succ']
    refine imp_congr_right fun _ => imp_congr_right fun _ => imp_congr_right fun _ => ?_
    exact ⟨fun same => funext fun i => same i i.isLt, fun same i inside => congrFun same ⟨i, inside⟩⟩
  exact ⟨words (fun _ => forward_) backward_ both.1, words backward_ (fun _ => forward_) both.2⟩

omit prime modulus congruent int short built in
/-- Two threads of a group are too few for four threads, and a warp is enough. -/
theorem kernels_undo_seventeen :
    ∃ root tables, setup (2 ^ 3) 17 .U64 (2 ^ 64) none = some (.ok (root, tables)) ∧
      ¬Undoes (groups 1) tables 17 3 2 (NTT_1D_ .shoup 17 (2 ^ 2))
        (INTT_1D_ .shoup (setupConstants 17 3) (2 ^ 2)) ∧
      Undoes (groups 5) tables 17 3 2 (INTT_1D_ .shoup (setupConstants 17 3) (2 ^ 2))
        (NTT_1D_ .shoup 17 (2 ^ 2)) := by
  obtain ⟨root, tables, built⟩ := @exists_setup 17 3 (by norm_num) (by decide) (by decide)
    (by decide)
  have few := @kernels_undo_iff 17 3 2 _ root none tables (by norm_num) ⟨by decide, by decide⟩
    (by decide) (by decide) (by decide) built .shoup 1
  have warp := @kernels_undo_iff 17 3 2 _ root none tables (by norm_num) ⟨by decide, by decide⟩
    (by decide) (by decide) (by decide) built .shoup 5
  exact ⟨root, tables, built, few.1.not.mpr (by decide), warp.2.mpr (by decide)⟩

end Inverse

end Fideslib.OnePass
