/-
This file proves that a launch writes each coefficient of each output once.
-/

import Fideslib.LinearTransform.DotProductKernel

namespace Fideslib.LinearTransform

/-- This is the place that a write stores to. -/
def Write.target (write : Write) : Bool × Nat × Nat × Nat :=
  (write.special, write.position, write.limb, write.idx)

namespace Batch

variable {batch : Batch} {transforms : Nat}

/-- The kernel covers this many coefficients. -/
def covered (batch : Batch) : Nat := batch.layout.N / 64 * 64

theorem covered_le : batch.covered ≤ batch.layout.N := Nat.div_mul_le_self _ _

theorem mem_threads {limbs : Nat} {thread : Thread} :
    thread ∈ batch.threads limbs ↔ thread.blockz < batch.layout.num_parallel_parts ∧
      thread.blocky < limbs ∧ thread.blockx < batch.layout.N / 64 ∧ thread.threadz < 4 ∧
        thread.thready < 2 ∧ thread.threadx < 16 := by
  obtain ⟨blockz, blocky, blockx, threadz, thready, threadx⟩ := thread
  simp only [threads, List.mem_flatMap, List.mem_map, List.mem_range, Thread.mk.injEq]
  constructor
  · rintro ⟨_, inZ, _, inY, _, inX, _, z, _, y, _, x, rfl, rfl, rfl, rfl, rfl, rfl⟩
    exact ⟨inZ, inY, inX, z, y, x⟩
  · rintro ⟨inZ, inY, inX, z, y, x⟩
    exact ⟨_, inZ, _, inY, _, inX, _, z, _, y, _, x, rfl, rfl, rfl, rfl, rfl, rfl⟩

theorem threads_nodup (limbs : Nat) : (batch.threads limbs).Nodup := by
  have each := fun count : Nat => List.nodup_range (n := count)
  unfold threads
  refine PartialLists.nodup_flatMap_of_key Thread.blockz (each _) (fun blockz _ => ?_) (by grind)
  refine PartialLists.nodup_flatMap_of_key Thread.blocky (each _) (fun blocky _ => ?_) (by grind)
  refine PartialLists.nodup_flatMap_of_key Thread.blockx (each _) (fun blockx _ => ?_) (by grind)
  refine PartialLists.nodup_flatMap_of_key Thread.threadz (each _) (fun threadz _ => ?_) (by grind)
  refine PartialLists.nodup_flatMap_of_key Thread.thready (each _) (fun thready _ => ?_) (by grind)
  exact PartialLists.nodup_map_of_key Thread.threadx (each _) (by simp)

theorem idx_lt {limbs : Nat} {thread : Thread} (member : thread ∈ batch.threads limbs) :
    thread.idx < batch.covered := by
  obtain ⟨-, -, inX, z, -, x⟩ := mem_threads.mp member
  unfold Thread.idx covered
  omega

/-- Every coefficient has one thread for each half of the ciphertext. -/
theorem exists_thread {limbs limb idx c blockz : Nat} (inLimb : limb < limbs)
    (inside : idx < batch.covered) (half : c < 2)
    (part : blockz < batch.layout.num_parallel_parts) :
    ∃ thread ∈ batch.threads limbs, thread.blockz = blockz ∧ thread.blocky = limb ∧
      thread.thready = c ∧ thread.idx = idx := by
  unfold covered at inside
  refine ⟨⟨blockz, limb, idx / 64, idx % 64 / 16, c, idx % 16⟩, ?_, rfl, rfl, rfl, ?_⟩
  · refine mem_threads.mpr ⟨part, inLimb, ?_, ?_, half, ?_⟩
    · change idx / 64 < _
      omega
    · change idx % 64 / 16 < 4
      omega
    · change idx % 16 < 16
      omega
  · change idx % 16 + idx % 64 / 16 * 16 + idx / 64 * 64 = idx
    omega

variable (sized : batch.Sized transforms) (single : batch.stride = 1)
include sized single

theorem mem_transforms {blockz k : Nat} (part : blockz < batch.layout.num_parallel_parts) :
    k ∈ batch.transforms blockz ↔
      k < transforms ∧ k % batch.layout.num_parallel_parts = blockz := by
  have positive := sized.parallel_pos
  simp only [Batch.transforms, num_LT_eq sized single, List.mem_map, List.mem_range]
  constructor
  · rintro ⟨round, inside, rfl⟩
    have bound := (Nat.le_div_iff_mul_le positive).mp (Nat.succ_le_of_lt inside)
    rw [Nat.succ_mul] at bound
    refine ⟨by omega, ?_⟩
    rw [Nat.add_mul_mod_self_right, Nat.mod_eq_of_lt part]
  · rintro ⟨inside, rest⟩
    have whole := Nat.div_add_mod' k batch.layout.num_parallel_parts
    refine ⟨k / batch.layout.num_parallel_parts, ?_, by omega⟩
    refine Nat.lt_of_succ_le ((Nat.le_div_iff_mul_le positive).mpr ?_)
    rw [Nat.succ_mul]
    omega

omit single in
theorem transforms_nodup (blockz : Nat) : (batch.transforms blockz).Nodup := by
  have positive := sized.parallel_pos
  refine PartialLists.nodup_map_of_key
    (fun k => (k - blockz) / batch.layout.num_parallel_parts) List.nodup_range ?_
  intro round _
  rw [Nat.add_sub_cancel_left, Nat.mul_div_cancel _ positive]

/-- These are the writes of a launch that reads inside of its plaintexts. -/
def launchWrites (batch : Batch) (special : Bool) : List Write :=
  (batch.threads (batch.limbCount special)).flatMap fun thread =>
    (batch.transforms thread.blockz).flatMap fun k =>
      (List.range batch.gStep).map (batch.writeOf special thread k)

section

variable {table : Nat → Option Pointer} {special : Bool}
variable (loaded : batch.IsTable table) (allowed : special → batch.ext)
include loaded allowed

theorem launch_eq (readable : batch.Readable special) :
    batch.dotProductLtBatchedPt2 table special = some (batch.launchWrites special) := by
  have thread : ∀ thread ∈ batch.threads (batch.limbCount special),
      batch.runThread table special thread =
        some ((batch.transforms thread.blockz).flatMap fun k =>
          (List.range batch.gStep).map (batch.writeOf special thread k)) := by
    intro thread member
    obtain ⟨part, inLimb, -, -, half, -⟩ := mem_threads.mp member
    have inside := (idx_lt member).trans_le covered_le
    have rounds := @PartialLists.mapM_eq_map _ _
      (fun k => (List.range batch.bStep).foldlM (batch.babyStep table special thread k)
        ((fun _ => 0 : Nat → Nat), ([] : List Write)))
      (fun k => (fun j => if j < batch.gStep then
          batch.dot special thread.thready thread.blocky thread.idx k j batch.bStep else 0,
        (List.range batch.gStep).map (batch.writeOf special thread k)))
      (batch.transforms thread.blockz) (by
        intro k member
        have inRange := ((mem_transforms sized single part).mp member).1
        have steps := babySteps_eq sized single loaded allowed half inRange (by
          intro i inBaby j inGiant
          exact readable _ (pt_lt sized inRange inBaby inGiant) _ inLimb
            _ inside) (le_refl _)
        rw [steps, if_pos rfl])
    rw [runThread, rounds]
    simp only [Option.bind_eq_bind, Option.bind_some, List.flatMap_map]
    rfl
  have all := PartialLists.mapM_eq_map thread
  unfold dotProductLtBatchedPt2
  change (List.mapM (batch.runThread table special) (batch.threads (batch.limbCount special)) >>= fun
    writes => pure writes.flatten) = _
  rw [all]
  rfl

/-- One word outside of its limb makes the launch fail. -/
theorem launch_none {position limb idx : Nat} (present : position < batch.pt.length)
    (inLimb : limb < batch.limbCount special) (inside : idx < batch.covered)
    (missing : batch.readWord special position limb idx = none) :
    batch.dotProductLtBatchedPt2 table special = none := by
  rw [sized.pt] at present
  obtain ⟨inPlaces, inBaby, places⟩ := place_split present
  obtain ⟨inRange, inGiant, rows⟩ := place_split inPlaces
  obtain ⟨k, kEq⟩ : ∃ k, k = position / batch.bStep / batch.gStep := ⟨_, rfl⟩
  obtain ⟨j, jEq⟩ : ∃ j, j = position / batch.bStep % batch.gStep := ⟨_, rfl⟩
  obtain ⟨i, iEq⟩ : ∃ i, i = position % batch.bStep := ⟨_, rfl⟩
  rw [← kEq] at inRange rows
  rw [← jEq] at inGiant rows
  rw [← iEq] at inBaby places
  have here : k * batch.bStep * batch.gStep + j * batch.bStep + i = position := by
    rw [← places, ← rows]
    ring
  obtain ⟨thread, member, part, row, column, coefficient⟩ :=
    @exists_thread batch (batch.limbCount special) limb idx 0
      (k % batch.layout.num_parallel_parts) inLimb inside (by decide)
      (Nat.mod_lt _ sized.parallel_pos)
  have half : thread.thready < 2 := by omega
  have inParts : thread.blockz < batch.layout.num_parallel_parts := (mem_threads.mp member).1
  have round : k ∈ batch.transforms thread.blockz :=
    (mem_transforms sized single inParts).mpr ⟨inRange, part.symm⟩
  have absent : batch.readWord special (k * batch.bStep * batch.gStep + j * batch.bStep + i)
      thread.blocky thread.idx = none := by rw [here, row, coefficient, missing]
  have giant : ∀ input state, batch.giantStep table special thread k i input state j = none := by
    intro input state
    simp only [giantStep, read_pt sized loaded allowed inRange inBaby inGiant,
      multPt_eq, absent, Option.bind_eq_bind, Option.bind_some, Option.map_none, Option.bind_none]
  have baby : ∀ state, batch.babyStep table special thread k state i = none := by
    intro state
    simp only [babyStep, read_in sized single loaded allowed half inRange inBaby,
      load_in sized single half inRange inBaby, Option.bind_eq_bind,
      Option.bind_some]
    exact PartialLists.foldlM_eq_none state (List.mem_range.mpr inGiant) (giant _)
  have stopped : batch.runThread table special thread = none := by
    rw [runThread, PartialLists.mapM_eq_none round (PartialLists.foldlM_eq_none _
      (List.mem_range.mpr inBaby) baby)]
    rfl
  unfold dotProductLtBatchedPt2
  change (List.mapM (batch.runThread table special) (batch.threads (batch.limbCount special)) >>= fun
    writes => pure writes.flatten) = _
  rw [PartialLists.mapM_eq_none member stopped]
  rfl

end

/-- A target determines the thread, the transform and the giant step that write it. -/
theorem launch_targets_nodup (special : Bool) :
    ((batch.launchWrites special).map Write.target).Nodup := by
  have giantPos := sized.gStep_pos
  unfold launchWrites
  simp only [List.map_flatMap, List.map_map]
  refine PartialLists.nodup_flatMap_of_key
    (fun target : Bool × Nat × Nat × Nat =>
      (⟨target.2.1 / 2 / batch.gStep % batch.layout.num_parallel_parts, target.2.2.1,
        target.2.2.2 / 64, target.2.2.2 % 64 / 16, target.2.1 % 2, target.2.2.2 % 16⟩ : Thread))
    (threads_nodup _) ?_ ?_
  · intro thread member
    obtain ⟨-, -, -, -, half, -⟩ := mem_threads.mp member
    refine PartialLists.nodup_flatMap_of_key
      (fun target : Bool × Nat × Nat × Nat => target.2.1 / 2 / batch.gStep)
      (transforms_nodup sized _) ?_ ?_
    · intro k _
      refine PartialLists.nodup_map_of_key
        (fun target : Bool × Nat × Nat × Nat => target.2.1 / 2 % batch.gStep) List.nodup_range ?_
      intro j inGiant
      change (2 * (k * batch.gStep + j) + thread.thready) / 2 % batch.gStep = j
      rw [show (2 * (k * batch.gStep + j) + thread.thready) / 2 = k * batch.gStep + j by omega,
        Nat.mul_add_mod_of_lt (List.mem_range.mp inGiant)]
    · intro k _ target inGiants
      obtain ⟨j, inGiant, rfl⟩ := List.mem_map.mp inGiants
      change (2 * (k * batch.gStep + j) + thread.thready) / 2 / batch.gStep = k
      rw [show (2 * (k * batch.gStep + j) + thread.thready) / 2 = k * batch.gStep + j by omega,
        place_div (List.mem_range.mp inGiant)]
  · intro thread member target inTransforms
    obtain ⟨part, -, -, z, half, x⟩ := mem_threads.mp member
    obtain ⟨k, round, inGiants⟩ := List.mem_flatMap.mp inTransforms
    obtain ⟨j, inGiant, rfl⟩ := List.mem_map.mp inGiants
    have place : (2 * (k * batch.gStep + j) + thread.thready) / 2 = k * batch.gStep + j := by omega
    obtain ⟨blockz, blocky, blockx, threadz, thready, threadx⟩ := thread
    have transform := ((mem_transforms sized single part).mp round).2
    simp only [Function.comp, Write.target, writeOf, Thread.idx, place,
      place_div (List.mem_range.mp inGiant), Thread.mk.injEq] at *
    refine ⟨transform, trivial, ?_, ?_, ?_, ?_⟩ <;> omega

/-- The targets are all coefficients of all outputs. -/
theorem mem_launch_targets {special other : Bool} {position limb idx : Nat} :
    (other, position, limb, idx) ∈ (batch.launchWrites special).map Write.target ↔
      other = special ∧ position < 2 * (transforms * batch.gStep) ∧
        limb < batch.limbCount special ∧ idx < batch.covered := by
  simp only [launchWrites, List.mem_map, List.mem_flatMap]
  constructor
  · rintro ⟨write, ⟨thread, member, k, round, j, inGiant, rfl⟩, same⟩
    obtain ⟨part, inLimb, -, -, half, -⟩ := mem_threads.mp member
    have inRange := ((mem_transforms sized single part).mp round).1
    have place := place_lt inRange (List.mem_range.mp inGiant)
    have inside := idx_lt member
    simp only [Write.target, writeOf, Prod.mk.injEq] at same
    obtain ⟨rfl, rfl, rfl, rfl⟩ := same
    exact ⟨rfl, by omega, inLimb, inside⟩
  · rintro ⟨rfl, inOut, inLimb, inside⟩
    have inPlaces : position / 2 < transforms * batch.gStep := by omega
    obtain ⟨inRange, inGiant, whole⟩ := place_split inPlaces
    obtain ⟨thread, member, part, row, column, coefficient⟩ :=
      @exists_thread batch (batch.limbCount other) limb idx (position % 2)
        (position / 2 / batch.gStep % batch.layout.num_parallel_parts) inLimb inside
        (Nat.mod_lt _ (by decide)) (Nat.mod_lt _ sized.parallel_pos)
    have inParts : thread.blockz < batch.layout.num_parallel_parts := (mem_threads.mp member).1
    refine ⟨_, ⟨thread, member, position / 2 / batch.gStep,
      (mem_transforms sized single inParts).mpr ⟨inRange, part.symm⟩, position / 2 % batch.gStep,
      List.mem_range.mpr inGiant, rfl⟩, ?_⟩
    simp only [Write.target, writeOf, Prod.mk.injEq]
    refine ⟨trivial, ?_, row, coefficient⟩
    rw [whole, column]
    omega

omit sized single in
theorem launch_value {special : Bool} {write : Write}
    (member : write ∈ batch.launchWrites special) :
    write.special = special ∧ write.value =
      batch.dot special (write.position % 2) write.limb write.idx
        (write.position / 2 / batch.gStep) (write.position / 2 % batch.gStep) batch.bStep := by
  simp only [launchWrites, List.mem_flatMap, List.mem_map, List.mem_range] at member
  obtain ⟨thread, inThreads, k, -, j, inGiant, rfl⟩ := member
  have half : thread.thready < 2 := (mem_threads.mp inThreads).2.2.2.2.1
  have place : (2 * (k * batch.gStep + j) + thread.thready) / 2 = k * batch.gStep + j := by omega
  have parity : (2 * (k * batch.gStep + j) + thread.thready) % 2 = thread.thready := by omega
  refine ⟨rfl, ?_⟩
  simp only [writeOf, place, parity, place_div inGiant, Nat.mul_add_mod_of_lt inGiant]

end Batch
end Fideslib.LinearTransform
