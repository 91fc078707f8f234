/-
This file gives the words that the parts of a transform kernel access and what they leave in them.
-/

import Fideslib.OnePass.Kernels

namespace Fideslib.OnePass

open Fideslib.Modular ThreadBlock Butterflies
open BitReversal (reverse)
open Twiddles (Table)

section Owners

variable (algo : ALGO) (k m dat tid : Nat)

/-- A thread works on these shared words at a level. -/
def Mine : Cell → Prop
  | .shared i => i < 2 * 2 ^ k ∧ owner m i = tid
  | _ => False

/-- The roots are read only, and a table is read up to the length of the limb. -/
def Roots : Cell → Prop
  | .shared i => 2 * 2 ^ k ≤ i
  | .limb _ _ => False
  | .table _ i => i < 2 * 2 ^ k

/-- A thread brings these words to the block. -/
def Brings : Cell → Prop
  | .shared i => (i < 2 * 2 ^ k ∧ i / 2 = tid) ∨ i = 2 * 2 ^ k + tid ∨
      (algo = .shoup ∧ i = 3 * 2 ^ k + tid)
  | .limb buffer i => buffer = dat ∧ i / 2 = tid
  | .table _ _ => False

def InTable : Cell → Prop
  | .table _ i => i < 2 * 2 ^ k
  | _ => False

/-- A thread returns these words to a limb. -/
def Returns : Cell → Prop
  | .shared i => i < 2 * 2 ^ k ∧ i / 2 = tid
  | .limb buffer i => buffer = dat ∧ i / 2 = tid
  | .table _ _ => False

end Owners

section Exclusive

variable {algo : ALGO} {k m dat : Nat} {team : List Nat}

theorem mine_not_root {tid : Nat} {cell : Cell} (mine : Mine k m tid cell) : ¬Roots k cell := by
  cases cell with
  | shared i => exact Nat.not_le.mpr mine.1
  | limb buffer i => exact not_false
  | table table i => exact mine.elim

theorem exclusive_mine : Exclusive team (Mine k m) (fun _ => Roots k) where
  single := by
    intro tid _ other _ cell mine theirs
    cases cell with
    | shared i => exact mine.2.symm.trans theirs.2
    | limb buffer i => exact mine.elim
    | table table i => exact mine.elim
  kept := fun _ _ _ _ _ mine => mine_not_root mine

theorem exclusive_brings (inside : ∀ tid ∈ team, tid < 2 ^ k) :
    Exclusive team (Brings algo k dat) (fun _ => InTable k) where
  single := by
    intro tid listed other near cell mine theirs
    have first := inside tid listed
    have second := inside other near
    cases cell with
    | shared i =>
        simp only [Brings] at mine theirs
        omega
    | limb buffer i => exact mine.2.symm.trans theirs.2
    | table table i => exact mine.elim
  kept := by
    intro tid _ _ _ cell mine
    cases cell with
    | shared i => exact not_false
    | limb buffer i => exact not_false
    | table table i => exact mine.elim

theorem exclusive_returns : Exclusive team (Returns k dat) (fun _ _ => False) where
  single := by
    intro tid _ other _ cell mine theirs
    cases cell with
    | shared i => exact mine.2.symm.trans theirs.2
    | limb buffer i => exact mine.2.symm.trans theirs.2
    | table table i => exact mine.elim
  kept := fun _ _ _ _ _ _ => not_false

end Exclusive

section Owned

variable {algo : ALGO} {p k s dat res : Nat} {team : List Nat}

theorem mine_first (order : s ≤ k) {tid : Nat} (inside : tid < 2 ^ k) :
    Mine k (2 ^ s) tid (.shared (firstPlace (2 ^ s) tid)) :=
  ⟨first_bound order inside, owner_first (Nat.two_pow_pos s) tid⟩

theorem mine_second (order : s ≤ k) {tid : Nat} (inside : tid < 2 ^ k) :
    Mine k (2 ^ s) tid (.shared (secondPlace (2 ^ s) tid)) :=
  ⟨second_bound order inside, owner_second (Nat.two_pow_pos s) tid⟩

theorem psi_root (i : Nat) : Roots k (psi (2 ^ k) i) := Nat.le_add_right _ _

theorem psi_shoup_root (i : Nat) : Roots k (psi_shoup algo (2 ^ k) i) := by
  change 2 * 2 ^ k ≤ 2 ^ k * (2 + if algo = .shoup then 1 else 0) + i
  rw [Nat.mul_add, Nat.mul_comm]
  omega

theorem half_root (table : Table) : Roots k (.table table (1 <<< (k + 1 - 1))) := by
  change 1 <<< (k + 1 - 1) < 2 * 2 ^ k
  have positive := Nat.two_pow_pos k
  rw [Nat.shiftLeft_eq, Nat.add_sub_cancel]
  omega

variable (inside : ∀ tid ∈ team, tid < 2 ^ k)

include inside

theorem owned_load (table table_shoup : Table) :
    Owned team (Brings algo k dat) (fun _ => InTable k)
      (load_psi algo (2 ^ k) table table_shoup ++ copy (.limb dat) .shared) := by
  have pair (tid : Nat) : (tid <<< 1) / 2 = tid ∧ ((tid <<< 1) + 1) / 2 = tid := by
    rw [Nat.shiftLeft_eq]
    omega
  have place {tid : Nat} (listed : tid ∈ team) : (tid <<< 1) + 1 < 2 * 2 ^ k := by
    have bound := inside tid listed
    rw [Nat.shiftLeft_eq]
    omega
  have entry (table : Table) {tid : Nat} (listed : tid ∈ team) : InTable k (.table table tid) :=
    (inside tid listed).trans_le (Nat.le_mul_of_pos_left _ two_pos)
  refine .append (.append ?_ (owned_forShoup fun chosen => ?_)) ?_
  · exact .load _ (fun _ listed => .inr (entry _ listed))
      (.store _ (fun tid _ => .inr (.inl rfl)) .nil)
  · refine .load _ (fun _ listed => .inr (entry _ listed)) (.store _ (fun tid _ => ?_) .nil)
    refine .inr (.inr ⟨chosen, ?_⟩)
    rw [if_pos chosen, Nat.mul_comm]
  · refine .load _ (fun tid _ => .inl ⟨rfl, (pair tid).1⟩)
      (.load _ (fun tid _ => .inl ⟨rfl, (pair tid).2⟩)
        (.store _ (fun tid listed => ?_) (.store _ (fun tid listed => ?_) .nil)))
    · exact .inl ⟨Nat.lt_of_succ_lt (place listed), (pair tid).1⟩
    · exact .inl ⟨place listed, (pair tid).2⟩

theorem owned_return :
    Owned team (Returns k res) (fun _ _ => False) (copy .shared (.limb res)) := by
  have pair (tid : Nat) : (tid <<< 1) / 2 = tid ∧ ((tid <<< 1) + 1) / 2 = tid := by
    rw [Nat.shiftLeft_eq]
    omega
  have place {tid : Nat} (listed : tid ∈ team) : (tid <<< 1) + 1 < 2 * 2 ^ k := by
    have bound := inside tid listed
    rw [Nat.shiftLeft_eq]
    omega
  exact .load _ (fun tid listed => .inl ⟨Nat.lt_of_succ_lt (place listed), (pair tid).1⟩)
    (.load _ (fun tid listed => .inl ⟨place listed, (pair tid).2⟩)
      (.store _ (fun tid _ => ⟨rfl, (pair tid).1⟩)
        (.store _ (fun tid _ => ⟨rfl, (pair tid).2⟩) .nil)))

theorem mine_shift {tid : Nat} (listed : tid ∈ team) : Mine k 1 tid (.shared (tid <<< 1)) := by
  rw [← firstPlace_one]
  exact @mine_first k 0 (Nat.zero_le k) tid (inside tid listed)

theorem mine_shift_succ {tid : Nat} (listed : tid ∈ team) :
    Mine k 1 tid (.shared ((tid <<< 1) + 1)) := by
  rw [← secondPlace_one]
  exact @mine_second k 0 (Nat.zero_le k) tid (inside tid listed)

theorem owned_forward_scale :
    Owned team (Mine k 1) (fun _ => Roots k) (forward_negacyclic_scale_1D algo p (2 ^ k) (k + 1)) := by
  have first {tid : Nat} (listed : tid ∈ team) := mine_shift inside listed
  have second {tid : Nat} (listed : tid ∈ team) := mine_shift_succ inside listed
  refine .append (.append (.append (.append ?_ (owned_forShoup fun _ => ?_)) ?_)
    (owned_forShoup fun _ => ?_)) ?_
  · exact .load _ (fun _ _ => .inr (psi_root _)) .nil
  · exact .load _ (fun _ _ => .inr (psi_shoup_root _)) .nil
  · exact .load _ (fun _ _ => .inr (half_root _)) .nil
  · exact .load _ (fun _ _ => .inr (half_root _)) .nil
  · exact .load _ (fun _ listed => .inl (first listed)) (.assign _ _
      (.store _ (fun _ listed => first listed) (.load _ (fun _ listed => .inl (second listed))
        (.assign _ _ (.store _ (fun _ listed => second listed) .nil)))))

theorem owned_backward_scale (constants : Constants) :
    Owned team (Mine k 1) (fun _ => Roots k)
      (backward_negacyclic_scale_1D algo constants (2 ^ k) (k + 1)) := by
  have first {tid : Nat} (listed : tid ∈ team) := mine_shift inside listed
  have second {tid : Nat} (listed : tid ∈ team) := mine_shift_succ inside listed
  refine .append (.append (.append ?_ (owned_forShoup fun _ => ?_)) ?_) ?_
  · exact .load _ (fun _ _ => .inr (psi_root _))
      (.load _ (fun _ _ => .inr (half_root _)) (.assign _ _ .nil))
  · exact .load _ (fun _ _ => .inr (half_root _)) .nil
  · exact .assign _ _ (.assign _ _ (.assign _ _ .nil))
  · exact .load _ (fun _ listed => .inl (first listed)) (.store _ (fun _ listed => first listed)
      (.load _ (fun _ listed => .inl (second listed))
        (.store _ (fun _ listed => second listed) .nil)))

theorem owned_halves : Owned team (Mine k (2 ^ k)) (fun _ => Roots k) (halves p (2 ^ k)) := by
  have first {tid : Nat} (listed : tid ∈ team) : Mine k (2 ^ k) tid (.shared tid) := by
    have mine := mine_first (le_refl k) (inside tid listed)
    rwa [firstPlace_whole (inside tid listed)] at mine
  have second {tid : Nat} (listed : tid ∈ team) : Mine k (2 ^ k) tid (.shared (tid + 2 ^ k)) := by
    have mine := mine_second (le_refl k) (inside tid listed)
    rwa [secondPlace_whole (inside tid listed)] at mine
  exact .load _ (fun _ listed => .inl (first listed)) (.load _ (fun _ listed => .inl (second listed))
    (.store _ (fun _ listed => first listed) (.store _ (fun _ listed => second listed) .nil)))

theorem owned_CT_butterfly (order : s ≤ k) :
    Owned team (Mine k (2 ^ s)) (fun _ => Roots k)
      (CT_butterfly algo p (fun tid => .shared (NTT_j1 (2 ^ s) tid))
        fun tid => .shared (NTT_j2 (2 ^ s) tid)) := by
  rw [NTT_j1_eq, NTT_j2_eq]
  exact owned_CT (fun tid listed => mine_first order (inside tid listed))
    fun tid listed => mine_second order (inside tid listed)

theorem owned_GS_butterfly (order : s ≤ k) :
    Owned team (Mine k (2 ^ s)) (fun _ => Roots k)
      (GS_butterfly algo p (fun tid => .shared (INTT_j1 (2 ^ s) tid))
        fun tid => .shared (INTT_j2 (2 ^ s) tid)) := by
  rw [INTT_j1_eq, INTT_j2_eq]
  exact owned_GS (fun tid listed => mine_first order (inside tid listed))
    fun tid listed => mine_second order (inside tid listed)

end Owned

section Whole

variable {algo : ALGO} {k dat res : Nat} {team : List Nat}

end Whole

section Races

variable {algo : ALGO} {p k s dat res : Nat} {joined : Nat → Nat → Prop} {team : List Nat}

/-- The shared words of a warp at narrow levels have this number. -/
def warpPlace : Cell → Nat
  | .shared i => i / 64
  | _ => 0

/-- These accesses of a block have been missed after a level. -/
abbrev afterLevel (k s : Nat) : History Nat Cell :=
  missed (fun s => Mine k (2 ^ s)) (fun _ => Roots k) (fun tid => tid / warpSize) (fun s => s ≤ 5) s

/-- At narrow levels a word belongs to one warp. -/
theorem levels_mine (k : Nat) (team : List Nat) :
    Levels team (fun s => Mine k (2 ^ s)) (fun _ => Roots k) (fun tid => tid / warpSize) warpPlace
      fun s => s ≤ 5 where
  exclusive := fun _ => exclusive_mine
  near := by
    intro s narrow tid _ cell mine
    cases cell with
    | shared i =>
        change i / 64 = tid / warpSize
        rw [← owner_warp narrow i, mine.2]
    | limb buffer i => exact mine.elim
    | table table i => exact mine.elim

theorem all_wait {count : Nat} :
    ∀ tid ∈ List.range count, ∀ other ∈ List.range count, (fun _ _ : Nat => True) other tid :=
  fun _ _ _ _ => trivial

/-- The barrier of a level waits for all that could still change its words. -/
theorem sync_covers (joined : Nat → Nat → Prop) (team : List Nat) {next : Nat}
    (order : s ≤ next + 1) :
    ∃ stops, sync (2 ^ next) = .barrier stops ∧
      Covers joined team (fun tid => tid / warpSize) (fun s => s ≤ 5) s next
        (.barrier stops : Instruction Nat Register Cell Nat) := by
  by_cases wide : warpSize ≤ 2 ^ next
  · exact ⟨_, if_pos wide, .inl fun _ _ _ _ => .inl trivial⟩
  · have small : next < 5 := by
      by_contra large
      exact wide (Nat.pow_le_pow_right two_pos (not_lt.mp large))
    exact ⟨_, if_neg wide, .inr ⟨by omega, small.le, fun _ _ _ _ same => .inl same.symm⟩⟩

/-- A level is kept apart from the level before it. -/
theorem separated_NTT_round (order : s < k) :
    Separated joined (List.range (2 ^ k)) (afterLevel k (s + 1))
      (NTT_round algo p (2 ^ k) (2 ^ s) (2 ^ (k + 1) - 2 ^ s) s)
      (afterLevel k s) := by
  have inside : ∀ tid ∈ List.range (2 ^ k), tid < 2 ^ k := fun tid listed => List.mem_range.mp listed
  have levels := levels_mine k (List.range (2 ^ k))
  have loads : Owned (List.range (2 ^ k)) (fun _ _ => False) (fun _ => Roots k)
      (NTT_twist algo (2 ^ k) (2 ^ (k + 1) - 2 ^ s) s) :=
    .load _ (fun _ _ => .inr (psi_root _)) (.load _ (fun _ _ => .inr (psi_shoup_root _)) .nil)
  obtain ⟨stops, barrier, covers⟩ := sync_covers joined (List.range (2 ^ k)) (le_refl (s + 1))
  have butterfly := levels.separated stops covers (@owned_CT_butterfly algo p k s _ inside order.le)
  rw [NTT_round, List.append_assoc, barrier]
  exact (levels.separated_fixed joined loads).append butterfly

theorem separated_forwardLevels (order : s ≤ k) :
    Separated joined (List.range (2 ^ k)) (afterLevel k s)
      (forwardLevels (NTT_round algo p (2 ^ k)) k s) (afterLevel k 0) := by
  induction s with
  | zero => exact ⟨trivial, .refl _⟩
  | succ s inductionHypothesis =>
      exact (separated_NTT_round (by omega)).append (inductionHypothesis (by omega))

/-- A thread returns the words that it has worked on at the last level. -/
theorem returns_mine {tid : Nat} {cell : Cell} (returns : Returns k res tid cell) :
    Mine k (2 ^ 0) tid cell ∨ ∃ i, cell = .limb res i := by
  cases cell with
  | shared i =>
      refine .inl ⟨returns.1, ?_⟩
      rw [pow_zero, owner, Nat.mul_one, Nat.mod_one, Nat.mul_one, Nat.add_zero]
      exact returns.2
  | limb buffer i =>
      obtain ⟨rfl, -⟩ := returns
      exact .inr ⟨i, rfl⟩
  | table table i => exact returns.elim

/-- A thread returns words that no other thread has worked on since it has last waited. -/
theorem missed_not_returned {tid other : Nat} (inside : tid ∈ team) (near : other ∈ team)
    (different : tid ≠ other) {cell : Cell}
    (read : (afterLevel k 0).read tid other cell) : ¬Returns k res other cell := by
  intro returns
  rcases returns_mine returns with mine | ⟨i, rfl⟩
  · exact (levels_mine k team).missed_not_own inside near different (Nat.zero_le 5) read mine
  · rcases read with mine | root | ⟨⟨s, -, mine⟩, -⟩
    · exact mine
    · exact root
    · exact mine

/-- The forward kernel has no races, however its threads move. -/
theorem raceFree_NTT_1D (dat res : Nat) :
    RaceFree joined (List.range (2 ^ k)) (NTT_1D_ algo p (2 ^ k) dat res) := by
  have inside : ∀ tid ∈ List.range (2 ^ k), tid < 2 ^ k := fun tid listed => List.mem_range.mp listed
  have loads := @separated_between _ _ _ _ _ joined _ _ _ _ all_wait
    (@owned_load algo k dat _ inside .psi .psi_shoup) (exclusive_brings inside)
  have scale := @separated_between _ _ _ _ _ joined _ _ _ _ all_wait
    (@owned_forward_scale algo p k _ inside) exclusive_mine
  have first := @separated_first _ _ _ _ _ _ (fun s => Mine k (2 ^ s)) (fun _ => Roots k) k joined
    (fun tid => tid / warpSize) (fun s => s ≤ 5) exclusive_mine (@owned_halves p k _ inside)
  have last := separated_of_owned joined (@owned_return k res _ inside) exclusive_returns
    (fun _ inside _ near different _ read => missed_not_returned inside near different read)
    fun _ inside _ near different _ written =>
      ⟨missed_not_returned inside near different (written.imp_right .inr), not_false⟩
  rw [NTT_1D_eq]
  have levels := @separated_forwardLevels algo p k k joined (le_refl k)
  have whole := loads.append (scale.append (first.append (levels.append last)))
  simp only [List.append_assoc] at whole ⊢
  exact whole.apart.raceFree

end Races

end Fideslib.OnePass
