/-
This file proves what the transform kernels compute when their threads move side by side.
-/

import Fideslib.OnePass.Segments

namespace Fideslib.OnePass

open Fideslib.Modular ThreadBlock NegacyclicTransform Butterflies
open BitReversal (reverse)
open Twiddles (Table)

section Effects

variable {algo : ALGO} {p k s tid : Nat} (block : Block)

theorem alone_sync (m tid : Nat) (block : Block) : alone [sync m] tid block = block := by
  change (sync m).act tid block = block
  unfold sync
  split <;> rfl

theorem alone_halves {m : Nat} (positive : 0 < m) :
    (alone (halves p m) tid block).memory (.shared tid) =
        modadd (block.memory (.shared tid)) (block.memory (.shared (tid + m))) p ∧
      (alone (halves p m) tid block).memory (.shared (tid + m)) =
        modsub (block.memory (.shared tid)) (block.memory (.shared (tid + m))) p := by
  have apart : Cell.shared tid ≠ .shared (tid + m) := by
    rw [Ne, Cell.shared.injEq]
    omega
  simp [alone, halves, Instruction.act, Machine.setRegister, Machine.setCell,
    Function.update_of_ne apart]

theorem alone_NTT_twist (BD maskPsi log_psi : Nat) :
    (alone (NTT_twist algo BD maskPsi log_psi) tid block).registers tid .psi =
        block.memory (psi BD (psiid maskPsi log_psi tid)) ∧
      (alone (NTT_twist algo BD maskPsi log_psi) tid block).registers tid .psi_shoup =
        block.memory (psi_shoup algo BD (psiid maskPsi log_psi tid)) ∧
      (alone (NTT_twist algo BD maskPsi log_psi) tid block).memory = block.memory := by
  simp [alone, NTT_twist, Instruction.act, Machine.setRegister, Machine.setCell]

theorem alone_copy {source target : Nat → Cell}
    (apart : target (tid <<< 1) ≠ target ((tid <<< 1) + 1)) :
    (alone (copy source target) tid block).memory (target (tid <<< 1)) =
        block.memory (source (tid <<< 1)) ∧
      (alone (copy source target) tid block).memory (target ((tid <<< 1) + 1)) =
        block.memory (source ((tid <<< 1) + 1)) ∧
      ∀ cell, cell ≠ target (tid <<< 1) → cell ≠ target ((tid <<< 1) + 1) →
        (alone (copy source target) tid block).memory cell = block.memory cell := by
  refine ⟨?_, ?_, fun cell first second => ?_⟩
  · simp [alone, copy, Instruction.act, Machine.setRegister, Machine.setCell,
      Function.update_of_ne apart]
  · simp [alone, copy, Instruction.act, Machine.setRegister, Machine.setCell]
  · simp [alone, copy, Instruction.act, Machine.setRegister, Machine.setCell,
      Function.update_of_ne first, Function.update_of_ne second]

/-- A thread brings its roots and no other word. -/
theorem alone_load_psi {BD : Nat} (inside : tid < BD) (table table_shoup : Table) :
    (alone (load_psi algo BD table table_shoup) tid block).memory (psi BD tid) =
        block.memory (.table table tid) ∧
      (algo = .shoup →
        (alone (load_psi algo BD table table_shoup) tid block).memory (psi_shoup algo BD tid) =
          block.memory (.table table_shoup tid)) ∧
      ∀ cell, (∀ i, 2 * BD ≤ i → cell ≠ .shared i) →
        (alone (load_psi algo BD table table_shoup) tid block).memory cell = block.memory cell := by
  have own : ∀ i, 2 * BD ≤ i → Cell.table table_shoup tid ≠ .shared i := fun _ _ same => nomatch same
  have root {cell : Cell} (outside : ∀ i, 2 * BD ≤ i → cell ≠ .shared i) : cell ≠ psi BD tid :=
    outside _ (Nat.le_add_right _ _)
  rw [load_psi, alone_append]
  by_cases chosen : algo = .shoup
  · have place : psi_shoup algo BD tid = .shared (3 * BD + tid) := by
      rw [psi_shoup, if_pos chosen, Nat.mul_comm]
    have apart : psi BD tid ≠ psi_shoup algo BD tid := by
      rw [place, psi, Ne, Cell.shared.injEq]
      omega
    rw [forShoup, if_pos chosen, alone_move, alone_move, Function.update_of_ne (root own)]
    refine ⟨?_, fun _ => Function.update_self _ _ _, fun cell outside => ?_⟩
    · rw [Function.update_of_ne apart, Function.update_self]
    · rw [Function.update_of_ne (place ▸ outside _ (by omega)), Function.update_of_ne (root outside)]
  · rw [forShoup, if_neg chosen]
    change Machine.memory (alone (move _ _ _) tid block) _ = _ ∧ _ ∧ _
    refine ⟨?_, fun same => absurd same chosen, fun cell outside => ?_⟩
    · rw [alone_move, Function.update_self]
    · change Machine.memory (alone (move _ _ _) tid block) _ = _
      rw [alone_move, Function.update_of_ne (root outside)]

theorem alone_forward_factors (BD logn : Nat) :
    (alone (forward_factors algo BD logn) tid block).memory = block.memory ∧
      (alone (forward_factors algo BD logn) tid block).registers tid .aux =
        block.memory (psi BD (pos1 BD tid)) ∧
      (algo = .shoup → (alone (forward_factors algo BD logn) tid block).registers tid .aux_shoup =
        block.memory (psi_shoup algo BD (pos1 BD tid))) ∧
      (alone (forward_factors algo BD logn) tid block).registers tid .root =
        block.memory (.table .psi (1 <<< (logn - 1))) := by
  simp only [forward_factors, alone_append]
  set first := alone [.load .aux fun tid => psi BD (pos1 BD tid)] tid block with firstEq
  obtain ⟨memory, quotient, kept⟩ := @alone_forShoup_load _ _ _ _ algo tid first .aux_shoup
    fun tid => psi_shoup algo BD (pos1 BD tid)
  set second := alone (forShoup algo [.load .aux_shoup fun tid => psi_shoup algo BD (pos1 BD tid)])
    tid first with secondEq
  have third : alone [.load .root fun _ => .table .psi (1 <<< (logn - 1))] tid second =
      second.setRegister tid .root (second.memory (.table .psi (1 <<< (logn - 1)))) := rfl
  obtain ⟨memoryLast, -, keptLast⟩ := @alone_forShoup_load _ _ _ _ algo tid
    (second.setRegister tid .root (second.memory (.table .psi (1 <<< (logn - 1))))) .root_shoup
    fun _ => .table .psi_shoup (1 <<< (logn - 1))
  have start : first = block.setRegister tid .aux (block.memory (psi BD (pos1 BD tid))) := rfl
  rw [third, memoryLast, keptLast _ (by decide), keptLast _ (by decide), keptLast _ (by decide)]
  refine ⟨?_, ?_, fun chosen => ?_, ?_⟩
  · rw [Machine.setRegister_memory, memory]
    rfl
  · rw [Machine.setRegister_other _ _ _ _ (by decide), kept _ (by decide), start,
      Machine.setRegister_self]
  · rw [Machine.setRegister_other _ _ _ _ (by decide), quotient chosen]
    rfl
  · rw [Machine.setRegister_self, memory]
    rfl

/-- The quotient of the first factor is right where the algorithm uses it. -/
theorem alone_forward_scale (BD logn : Nat) :
    ∃ aux_shoup root_shoup,
      (algo = .shoup → aux_shoup = block.memory (psi_shoup algo BD (pos1 BD tid))) ∧
        (alone (forward_negacyclic_scale_1D algo p BD logn) tid block).memory
            (.shared (tid <<< 1)) =
          modmult algo (block.memory (.shared (tid <<< 1))) (block.memory (psi BD (pos1 BD tid))) p
            aux_shoup ∧
        (alone (forward_negacyclic_scale_1D algo p BD logn) tid block).memory
            (.shared ((tid <<< 1) + 1)) =
          modmult .barrett (modmult algo (block.memory (.shared ((tid <<< 1) + 1)))
            (block.memory (psi BD (pos1 BD tid))) p aux_shoup)
              (block.memory (.table .psi (1 <<< (logn - 1)))) p root_shoup := by
  obtain ⟨memory, aux, quotient, root⟩ := @alone_forward_factors algo tid block BD logn
  refine ⟨_, (alone (forward_factors algo BD logn) tid block).registers tid .root_shoup, quotient,
    ?_⟩
  rw [forward_negacyclic_scale_1D, alone_append, ← aux, ← root, ← memory]
  constructor
  · simp [alone, Instruction.act, Machine.setRegister, Machine.setCell]
  · simp [alone, Instruction.act, Machine.setRegister, Machine.setCell]

/-- These are the factors of the two words of a thread. -/
def factor (constants : Constants) (logn psi : Nat) : Nat :=
  modmult .shoup (modmult .barrett psi (1 <<< (constants.logN - logn)) constants.p 0)
    constants.N_inv constants.p constants.N_inv_shoup

theorem alone_backward_factors (constants : Constants) (BD logn : Nat) :
    ∃ root_shoup, (algo = .shoup →
        root_shoup = block.memory (.table .inv_psi_shoup (1 <<< (logn - 1)))) ∧
      (alone (backward_factors algo constants BD logn) tid block).memory = block.memory ∧
      (alone (backward_factors algo constants BD logn) tid block).registers tid .aux =
        factor constants logn (block.memory (psi BD (pos1 BD tid))) ∧
      (alone (backward_factors algo constants BD logn) tid block).registers tid .aux2 =
        modmult algo (factor constants logn (block.memory (psi BD (pos1 BD tid))))
          (block.memory (.table .inv_psi (1 <<< (logn - 1)))) constants.p root_shoup := by
  simp only [backward_factors, alone_append]
  set first := alone [.load .aux fun tid => psi BD (pos1 BD tid),
    .load .root fun _ => .table .inv_psi (1 <<< (logn - 1)), .assign .root_shoup fun _ => 0]
      tid block with firstEq
  obtain ⟨memory, quotient, kept⟩ := @alone_forShoup_load _ _ _ _ algo tid first .root_shoup
    fun _ => .table .inv_psi_shoup (1 <<< (logn - 1))
  have start : first.memory = block.memory ∧
      first.registers tid .aux = block.memory (psi BD (pos1 BD tid)) ∧
      first.registers tid .root = block.memory (.table .inv_psi (1 <<< (logn - 1))) := by
    simp [firstEq, alone, Instruction.act, Machine.setRegister]
  set second := alone (forShoup algo [.load .root_shoup fun _ =>
    .table .inv_psi_shoup (1 <<< (logn - 1))]) tid first
  refine ⟨second.registers tid .root_shoup, fun chosen => ?_, ?_, ?_, ?_⟩
  · rw [quotient chosen, start.1]
  · exact memory.trans start.1
  · rw [← start.2.1, ← kept .aux (by decide)]
    simp [alone, Instruction.act, Machine.setRegister, factor]
  · rw [← start.2.1, ← start.2.2, ← kept .aux (by decide), ← kept .root (by decide)]
    simp [alone, Instruction.act, Machine.setRegister, factor]

theorem alone_backward_scale (constants : Constants) (BD logn : Nat) :
    ∃ root_shoup, (algo = .shoup →
        root_shoup = block.memory (.table .inv_psi_shoup (1 <<< (logn - 1)))) ∧
      (alone (backward_negacyclic_scale_1D algo constants BD logn) tid block).memory
          (.shared (tid <<< 1)) =
        modmult .barrett (block.memory (.shared (tid <<< 1)))
          (factor constants logn (block.memory (psi BD (pos1 BD tid)))) constants.p 0 ∧
      (alone (backward_negacyclic_scale_1D algo constants BD logn) tid block).memory
          (.shared ((tid <<< 1) + 1)) =
        modmult .barrett (block.memory (.shared ((tid <<< 1) + 1)))
          (modmult algo (factor constants logn (block.memory (psi BD (pos1 BD tid))))
            (block.memory (.table .inv_psi (1 <<< (logn - 1)))) constants.p root_shoup)
          constants.p 0 := by
  obtain ⟨root_shoup, quotient, memory, aux, aux2⟩ :=
    @alone_backward_factors algo tid block constants BD logn
  refine ⟨root_shoup, quotient, ?_⟩
  rw [backward_negacyclic_scale_1D, alone_append, ← aux2, ← aux, ← memory]
  constructor
  · simp [alone, Instruction.act, Machine.setRegister, Machine.setCell]
  · simp [alone, Instruction.act, Machine.setRegister, Machine.setCell]

/-- A thread works on its two words with the twist of its block. -/
theorem alone_NTT_round (order : s ≤ k) (inside : tid < 2 ^ k) :
    (alone (NTT_round algo p (2 ^ k) (2 ^ s) (2 ^ (k + 1) - 2 ^ s) s) tid block).memory
        (.shared (firstPlace (2 ^ s) tid)) =
      modadd (block.memory (.shared (firstPlace (2 ^ s) tid)))
        (modmult algo (block.memory (.shared (secondPlace (2 ^ s) tid)))
          (block.memory (psi (2 ^ k) (tid / 2 ^ s))) p
          (block.memory (psi_shoup algo (2 ^ k) (tid / 2 ^ s)))) p ∧
      (alone (NTT_round algo p (2 ^ k) (2 ^ s) (2 ^ (k + 1) - 2 ^ s) s) tid block).memory
          (.shared (secondPlace (2 ^ s) tid)) =
        modsub (block.memory (.shared (firstPlace (2 ^ s) tid)))
          (modmult algo (block.memory (.shared (secondPlace (2 ^ s) tid)))
            (block.memory (psi (2 ^ k) (tid / 2 ^ s))) p
            (block.memory (psi_shoup algo (2 ^ k) (tid / 2 ^ s)))) p := by
  have index : psiid (2 ^ (k + 1) - 2 ^ s) s tid = tid / 2 ^ s :=
    psiid_eq (by omega) (inside.trans (Nat.pow_lt_pow_right one_lt_two (Nat.lt_succ_self k)))
  obtain ⟨twist, quotient, memory⟩ :=
    @alone_NTT_twist algo tid block (2 ^ k) (2 ^ (k + 1) - 2 ^ s) s
  rw [index] at twist quotient
  rw [NTT_round, alone_append, alone_append, alone_sync, NTT_j1_eq, NTT_j2_eq, ← twist, ← quotient,
    ← memory]
  apply alone_CT
  rw [Ne, Cell.shared.injEq]
  exact first_ne_second (Nat.two_pow_pos s) tid

theorem alone_INTT_round (constants : Constants) (order : s ≤ k) (inside : tid < 2 ^ k) :
    ∃ shoup, (algo = .shoup → shoup = block.memory (psi_shoup algo (2 ^ k) (tid / 2 ^ s))) ∧
      (alone (INTT_round algo constants (2 ^ k) (2 ^ s) (2 ^ k - 2 ^ s) s) tid block).memory
          (.shared (firstPlace (2 ^ s) tid)) =
        modadd (block.memory (.shared (firstPlace (2 ^ s) tid)))
          (block.memory (.shared (secondPlace (2 ^ s) tid))) constants.p ∧
      (alone (INTT_round algo constants (2 ^ k) (2 ^ s) (2 ^ k - 2 ^ s) s) tid block).memory
          (.shared (secondPlace (2 ^ s) tid)) =
        modmult algo (modsub (block.memory (.shared (firstPlace (2 ^ s) tid)))
            (block.memory (.shared (secondPlace (2 ^ s) tid))) constants.p)
          (block.memory (psi (2 ^ k) (tid / 2 ^ s))) constants.p shoup := by
  have index : psiid (2 ^ k - 2 ^ s) s tid = tid / 2 ^ s := psiid_eq order inside
  have start : alone [sync (2 ^ s), .load .psi fun tid => psi (2 ^ k) (psiid (2 ^ k - 2 ^ s) s tid)]
      tid block = block.setRegister tid .psi (block.memory (psi (2 ^ k) (tid / 2 ^ s))) := by
    rw [← List.singleton_append, alone_append, alone_sync, ← index]
    rfl
  obtain ⟨memory, quotient, kept⟩ := @alone_forShoup_load _ _ _ _ algo tid
    (block.setRegister tid .psi (block.memory (psi (2 ^ k) (tid / 2 ^ s)))) .psi_shoup
    fun tid => psi_shoup algo (2 ^ k) (psiid (2 ^ k - 2 ^ s) s tid)
  have twist := kept .psi (by decide)
  rw [Machine.setRegister_self] at twist
  rw [index, Machine.setRegister_memory] at quotient
  rw [Machine.setRegister_memory] at memory
  rw [INTT_round, alone_append, alone_append, start, INTT_j1_eq, INTT_j2_eq]
  set ready := alone (forShoup algo [.load .psi_shoup fun tid =>
    psi_shoup algo (2 ^ k) (psiid (2 ^ k - 2 ^ s) s tid)]) tid
      (block.setRegister tid .psi (block.memory (psi (2 ^ k) (tid / 2 ^ s)))) with readyEq
  clear_value ready
  refine ⟨ready.registers tid .psi_shoup, quotient, ?_⟩
  rw [← twist, ← memory]
  apply alone_GS
  rw [Ne, Cell.shared.injEq]
  exact first_ne_second (Nat.two_pow_pos s) tid

end Effects

section Owned

variable {algo : ALGO} {p k s : Nat} {team : List Nat} (inside : ∀ tid ∈ team, tid < 2 ^ k)

include inside

theorem owned_NTT_round (order : s ≤ k) (maskPsi : Nat) :
    Owned team (Mine k (2 ^ s)) (fun _ => Roots k)
      (NTT_round algo p (2 ^ k) (2 ^ s) maskPsi s) := by
  refine .append (.append ?_ ?_) (owned_CT_butterfly inside order)
  · exact .load _ (fun _ _ => .inr (psi_root _)) (.load _ (fun _ _ => .inr (psi_shoup_root _)) .nil)
  · unfold sync
    split
    · exact .barrier _ .nil
    · exact .barrier _ .nil

theorem owned_INTT_round (constants : Constants) (order : s ≤ k) (maskPsi : Nat) :
    Owned team (Mine k (2 ^ s)) (fun _ => Roots k)
      (INTT_round algo constants (2 ^ k) (2 ^ s) maskPsi s) := by
  refine .append (.append ?_ (owned_forShoup fun _ => ?_)) (owned_GS_butterfly inside order)
  · unfold sync
    split
    · exact .barrier _ (.load _ (fun _ _ => .inr (psi_root _)) .nil)
    · exact .barrier _ (.load _ (fun _ _ => .inr (psi_root _)) .nil)
  · exact .load _ (fun _ _ => .inr (psi_shoup_root _)) .nil

end Owned

section Levels

variable {algo : ALGO} {p k s : Nat} {block : Block}

/-- The shared words of a block hold these residues. -/
abbrev Holds (p k : Nat) (block : Block) (y : Nat → ZMod p) : Prop :=
  Residues p (2 * 2 ^ k) (fun i => block.memory (.shared i)) y

/-- The shared roots of a block are these residues. -/
abbrev Twists (algo : ALGO) (p k : Nat) (block : Block) (h : Nat → ZMod p) : Prop :=
  Twisted algo p (2 ^ k) (fun i => block.memory (psi (2 ^ k) i))
    (fun i => block.memory (psi_shoup algo (2 ^ k) i)) h

/-- Roots that nobody writes stay. -/
theorem twists_kept {h : Nat → ZMod p} {after : Block} (twists : Twists algo p k block h)
    (same : ∀ cell, Roots k cell → after.memory cell = block.memory cell) :
    Twists algo p k after h := by
  refine ⟨twists.toResidues.of_same fun i _ => same _ (psi_root i), fun chosen i inside => ?_⟩
  rw [same _ (psi_root i), same _ (psi_shoup_root i)]
  exact twists.quotient chosen i inside

variable {y h : Nat → ZMod p}

/-- Owners of the words leave what they compute by themselves. -/
theorem lockstep_mine {m tid : Nat} {code : Code Nat Cell} {team : List Nat} (once : team.Nodup)
    (owned : Owned team (Mine k m) (fun _ => Roots k) code) (listed : tid ∈ team) {cell : Cell}
    (mine : Mine k m tid cell) :
    (lockstep team code block).memory cell = (alone code tid block).memory cell :=
  lockstep_owner once owned exclusive_mine listed mine block

theorem lockstep_roots {m : Nat} {code : Code Nat Cell} {team : List Nat}
    (owned : Owned team (Mine k m) (fun _ => Roots k) code) {cell : Cell} (root : Roots k cell) :
    (lockstep team code block).memory cell = block.memory cell :=
  lockstep_frame owned (fun _ _ mine => mine_not_root mine root) block

theorem range_inside (count : Nat) : ∀ tid ∈ List.range count, tid < count :=
  fun _ listed => List.mem_range.mp listed

/-- A round of the forward kernel is a level of the transform. -/
theorem holds_NTT_round (modulus : Modulus p) (order : s ≤ k) (holds : Holds p k block y)
    (twists : Twists algo p k block h) :
    Holds p k (lockstep (List.range (2 ^ k))
      (NTT_round algo p (2 ^ k) (2 ^ s) (2 ^ (k + 1) - 2 ^ s) s) block) (ctLevel h (2 ^ s) y) := by
  apply holds.ct_level modulus order twists
  intro tid inside
  have owned := @owned_NTT_round algo p k s _ (range_inside (2 ^ k)) order (2 ^ (k + 1) - 2 ^ s)
  have listed := List.mem_range.mpr inside
  obtain ⟨first, second⟩ := @alone_NTT_round algo p k s tid block order inside
  refine ⟨_, fun _ => rfl, ?_, ?_⟩
  · rw [lockstep_mine List.nodup_range owned listed (mine_first order inside), first]
  · rw [lockstep_mine List.nodup_range owned listed (mine_second order inside), second]

/-- A round of the inverse kernel is a level of the inverse transform. -/
theorem holds_INTT_round {constants : Constants} (modulus : Modulus constants.p)
    {y h : Nat → ZMod constants.p} (order : s ≤ k) (holds : Holds constants.p k block y)
    (twists : Twists algo constants.p k block h) :
    Holds constants.p k (lockstep (List.range (2 ^ k))
      (INTT_round algo constants (2 ^ k) (2 ^ s) (2 ^ k - 2 ^ s) s) block)
        (gsLevel h (2 ^ s) y) := by
  apply holds.gs_level modulus order twists
  intro tid inside
  have owned := @owned_INTT_round algo k s _ (range_inside (2 ^ k)) constants order (2 ^ k - 2 ^ s)
  have listed := List.mem_range.mpr inside
  obtain ⟨shoup, prepared, first, second⟩ :=
    @alone_INTT_round algo k s tid block constants order inside
  refine ⟨shoup, prepared, ?_, ?_⟩
  · rw [lockstep_mine List.nodup_range owned listed (mine_first order inside), first]
  · rw [lockstep_mine List.nodup_range owned listed (mine_second order inside), second]

end Levels

end Fideslib.OnePass
