/-
This file proves which updates a batched operation makes when its parts are even.
-/

import Fideslib.Kernels.ManyToOne
import Fideslib.LinearTransform.PointerTable

namespace Fideslib.ManyToOne

open LinearTransform (place_lt place_split place_div)

namespace Call

variable {call : Call} {partb : Nat}

/-- Every operand has its stride of targets, and the blocks cover the ring. -/
structure Shaped (call : Call) (partb : Nat) : Prop where
  ring : ∃ logN, 7 ≤ logN ∧ call.cc.N = 2 ^ logN
  partb_pos : 0 < partb
  stride_pos : 0 < call.stride
  parta : call.parta = call.stride * partb

namespace Shaped

variable (shaped : call.Shaped partb)
include shaped

theorem parta_pos : 0 < call.parta := by
  rw [shaped.parta]
  exact Nat.mul_pos shaped.stride_pos shaped.partb_pos

theorem parts_le : call.num_parallel_parts ≤ call.parta :=
  max_le shaped.parta_pos (min_le_right _ _)

omit shaped in
theorem parts_pos : 0 < call.num_parallel_parts :=
  lt_of_lt_of_le one_pos (le_max_left _ _)

theorem split_pos : 0 < call.split partb := by
  have positive := shaped.partb_pos
  have parts := @parts_pos call
  unfold split
  split_ifs
  · exact Nat.div_pos (by omega) positive
  · exact one_pos

/-- Each part of a stride has at least one target. -/
theorem split_le : call.split partb ≤ call.stride := by
  have positive := shaped.partb_pos
  have stride := shaped.stride_pos
  have parts := shaped.parts_le
  rw [shaped.parta] at parts
  unfold split
  split_ifs
  · refine Nat.le_of_lt_succ (Nat.div_lt_of_lt_mul ?_)
    rw [Nat.mul_succ, mul_comm partb]
    omega
  · omega

omit shaped in
theorem its_eq : call.its partb = call.stride / call.split partb := by
  unfold its
  split_ifs with many
  · rfl
  · rw [split, if_neg many, Nat.div_one]

theorem its_pos : 0 < call.its partb := by
  rw [its_eq]
  exact Nat.div_pos shaped.split_le shaped.split_pos

theorem gridz_pos : 0 < call.gridz partb := by
  have parts := @parts_pos call
  unfold gridz
  split_ifs
  · exact Nat.mul_pos shaped.split_pos shaped.partb_pos
  · exact parts

omit shaped in
theorem parts_within : call.its partb * call.split partb ≤ call.stride := by
  rw [its_eq]
  exact Nat.div_mul_le_self _ _

omit shaped in
theorem even_iff : call.its partb * call.split partb = call.stride ↔
    call.split partb ∣ call.stride := by
  rw [its_eq]
  exact ⟨fun whole => ⟨_, by rw [mul_comm]; exact whole.symm⟩, Nat.div_mul_cancel⟩

theorem rounds_eq (even : call.its partb * call.split partb = call.stride) :
    call.parta / call.its partb = call.split partb * partb := by
  rw [shaped.parta, ← even, mul_assoc]
  exact Nat.mul_div_cancel_left _ shaped.its_pos

theorem coefficients : 128 * (call.cc.N / 128) = call.cc.N := by
  obtain ⟨logN, large, size⟩ := shaped.ring
  exact Nat.mul_div_cancel' (size ▸ pow_dvd_pow 2 large)

theorem N_pos : 0 < call.cc.N := by
  obtain ⟨logN, large, size⟩ := shaped.ring
  exact size ▸ Nat.two_pow_pos logN

end Shaped
end Call

/-- A table has all targets and all operands of a launch in their order. -/
structure Launch.Loaded (launch : Launch) (call : Call) (partb : Nat) (table : Table) : Prop where
  targets : ∀ place, place < call.stride * partb →
    table (launch.a + place) = some (.target place launch.special)
  loads : ∀ i, i < call.split partb * partb → ∀ limb, limb < launch.limbs →
    launch.loads call table i (call.primeid launch.special limb) =
      some (launch.kernel.operand (call.isU64 (call.primeid launch.special limb)) launch.special
        (i / call.split partb) (call.primeid launch.special limb))

/-- The pass of a thread over a full part. -/
def Launch.passOf (launch : Launch) (call : Call) (partb : Nat) (thread : Thread) (i : Nat) : Visit :=
  let primeid := call.primeid launch.special thread.limb
  ⟨launch.kernel, primeid, thread.limb, thread.idx,
    launch.kernel.operand (call.isU64 primeid) launch.special (i / call.split partb) primeid,
    (List.range (call.its partb)).map fun j => .target (i * call.its partb + j) launch.special⟩

/-- The update of one coefficient of one target in the loop of single operations. -/
def Launch.updateOf (launch : Launch) (call : Call) (place limb idx : Nat) : Visit :=
  let primeid := call.primeid launch.special limb
  ⟨launch.kernel, primeid, limb, idx,
    launch.kernel.operand (call.isU64 primeid) launch.special (place / call.stride) primeid,
    [.target place launch.special]⟩

/-- This is the target of an update. -/
def Visit.target (visit : Visit) : Nat × Bool :=
  match visit.targets.headD .null with
  | .target position special => (position, special)
  | _ => (0, false)

section Passes

variable {call : Call} {partb : Nat} {table : Table} {launch : Launch}

/-- Consecutive targets are taken without a stop. -/
theorem targetsFrom_eq {special : Bool} {count : Nat} :
    ∀ {place first : Nat},
      (∀ j, j < count → table (place + j) = some (.target (first + j) special)) →
      targetsFrom table place count =
        some ((List.range count).map fun j => .target (first + j) special) := by
  induction count with
  | zero => exact fun _ => rfl
  | succ count inductionHypothesis =>
      intro place first found
      have head : table place = some (.target first special) := found 0 (by omega)
      have rest := @inductionHypothesis (place + 1) (first + 1) (by
        intro j below
        have next := found (j + 1) (by omega)
        rwa [← Nat.add_assoc, Nat.add_right_comm, ← Nat.add_assoc, Nat.add_right_comm first] at next)
      simp only [targetsFrom, head, rest, Option.bind_eq_bind, Option.bind_some, Option.pure_def,
        List.range_succ_eq_map, List.map_cons, List.map_map, Option.some.injEq, List.cons.injEq,
        Nat.add_zero, true_and]
      apply List.map_congr_left
      intro j _
      change Entry.target (first + 1 + j) special = .target (first + (j + 1)) special
      rw [Nat.add_assoc, Nat.add_comm 1]

variable (shaped : call.Shaped partb)
variable (even : call.its partb * call.split partb = call.stride)
include even

/-- Every part lies inside of the stride of its operand. -/
theorem part_place {i j : Nat} (inPart : j < call.its partb) :
    (i * call.its partb + j) / call.stride = i / call.split partb := by
  rw [← even, ← Nat.div_div_eq_div_mul, place_div inPart]

theorem part_lt {i j : Nat} (inside : i < call.split partb * partb) (inPart : j < call.its partb) :
    i * call.its partb + j < call.stride * partb := by
  have place := place_lt inside inPart
  calc i * call.its partb + j < call.split partb * partb * call.its partb := place
    _ = call.stride * partb := by rw [← even]; ring

theorem visit_eq (loaded : launch.Loaded call partb table) {thread : Thread}
    (inLimb : thread.limb < launch.limbs) {i : Nat} (inside : i < call.split partb * partb) :
    launch.visit call table (call.its partb) thread i = some (launch.passOf call partb thread i) := by
  have targets : targetsFrom table (launch.a + i * call.its partb) (call.its partb) =
      some ((List.range (call.its partb)).map fun j =>
        .target (i * call.its partb + j) launch.special) := by
    apply targetsFrom_eq
    intro j inPart
    rw [Nat.add_assoc]
    exact loaded.targets _ (part_lt even inside inPart)
  simp only [Launch.visit, loaded.loads i inside _ inLimb, targets, Option.bind_eq_bind,
    Option.bind_some, Option.pure_def]
  rfl

include shaped

/-- The thread of a block visits the parts that leave its remainder. -/
theorem visits_eq (loaded : launch.Loaded call partb table) {thread : Thread}
    (inLimb : thread.limb < launch.limbs) (inGrid : thread.z < call.gridz partb) :
    launch.visits call table partb thread =
      some ((GridStride.rounds (call.split partb * partb) (call.gridz partb) thread.z).map
        (launch.passOf call partb thread)) := by
  rw [Launch.visits, shaped.rounds_eq even]
  apply PartialLists.mapM_eq_map
  intro i member
  exact visit_eq even loaded inLimb ((GridStride.mem_rounds inGrid).mp member).1

omit shaped even in
theorem mem_threads {thread : Thread} :
    thread ∈ launch.threads call (call.gridz partb) ↔
      thread.z < call.gridz partb ∧ thread.limb < launch.limbs ∧
        thread.idx < 128 * (call.cc.N / 128) := by
  obtain ⟨z, limb, idx⟩ := thread
  simp only [Launch.threads, List.mem_flatMap, List.mem_map, List.mem_range, Thread.mk.injEq]
  constructor
  · rintro ⟨_, inGrid, _, inLimb, _, inside, rfl, rfl, rfl⟩
    exact ⟨inGrid, inLimb, inside⟩
  · rintro ⟨inGrid, inLimb, inside⟩
    exact ⟨_, inGrid, _, inLimb, _, inside, rfl, rfl, rfl⟩

omit shaped even in
theorem threads_nodup : (launch.threads call (call.gridz partb)).Nodup := by
  unfold Launch.threads
  refine PartialLists.nodup_flatMap_of_key Thread.z List.nodup_range (fun z _ => ?_) (by grind)
  refine PartialLists.nodup_flatMap_of_key Thread.limb List.nodup_range (fun limb _ => ?_) (by grind)
  exact PartialLists.nodup_map_of_key Thread.idx List.nodup_range (by simp)

/-- The passes of all threads of a launch. -/
def Launch.passes (launch : Launch) (call : Call) (partb : Nat) : List Visit :=
  (launch.threads call (call.gridz partb)).flatMap fun thread =>
    (GridStride.rounds (call.split partb * partb) (call.gridz partb) thread.z).map
      (launch.passOf call partb thread)

theorem launch_visits_eq (loaded : launch.Loaded call partb table) :
    (do
      let threads ← (launch.threads call (call.gridz partb)).mapM (launch.visits call table partb)
      return threads.flatten) = some (launch.passes call partb) := by
  have each : (launch.threads call (call.gridz partb)).mapM (launch.visits call table partb) =
      some ((launch.threads call (call.gridz partb)).map fun thread =>
        (GridStride.rounds (call.split partb * partb) (call.gridz partb) thread.z).map
          (launch.passOf call partb thread)) := by
    apply PartialLists.mapM_eq_map
    intro thread member
    exact visits_eq shaped even loaded (mem_threads.mp member).2.1 (mem_threads.mp member).1
  rw [each, Option.bind_eq_bind, Option.bind_some, ← List.flatMap_def]
  rfl

theorem work_visits_eq {work : Work}
    (loaded : ∀ launch ∈ work.launches, launch.Loaded call partb work.table) :
    work.visits call partb = some (work.launches.flatMap fun launch => launch.passes call partb) := by
  have each : (work.launches.mapM fun launch => do
        let threads ← (launch.threads call (call.gridz partb)).mapM
          (launch.visits call work.table partb)
        return threads.flatten) =
      some (work.launches.map fun launch => launch.passes call partb) := by
    apply PartialLists.mapM_eq_map
    intro launch member
    exact launch_visits_eq shaped even (loaded launch member)
  rw [Work.visits, each, Option.bind_eq_bind, Option.bind_some, ← List.flatMap_def]
  rfl

/-- These are the updates of the loop of single operations. -/
def Work.Updated (work : Work) (call : Call) (partb : Nat) (visit : Visit) : Prop :=
  ∃ launch ∈ work.launches, ∃ place < call.stride * partb, ∃ limb < launch.limbs,
    ∃ idx < call.cc.N, visit = launch.updateOf call place limb idx

/-- The launches of a call differ in the limbs that they update. -/
def Work.Distinct (work : Work) : Prop := (work.launches.map Launch.special).Nodup

omit shaped in
/-- Each target of a part is combined with the operand of its stride. -/
theorem updates_passOf (thread : Thread) (i : Nat) :
    (launch.passOf call partb thread i).updates =
      (List.range (call.its partb)).map fun j =>
        launch.updateOf call (i * call.its partb + j) thread.limb thread.idx := by
  simp only [Visit.updates, Launch.passOf, List.map_map]
  apply List.map_congr_left
  intro j member
  simp only [Function.comp, Launch.updateOf, part_place even (List.mem_range.mp member)]

theorem mem_passes {visit : Visit} :
    visit ∈ (launch.passes call partb).flatMap Visit.updates ↔
      ∃ place < call.stride * partb, ∃ limb < launch.limbs, ∃ idx < call.cc.N,
        visit = launch.updateOf call place limb idx := by
  have positive := shaped.gridz_pos
  simp only [Launch.passes, List.mem_flatMap, List.mem_map]
  constructor
  · rintro ⟨_, ⟨thread, inThreads, i, round, rfl⟩, update⟩
    obtain ⟨inGrid, inLimb, inside⟩ := mem_threads.mp inThreads
    rw [updates_passOf even, List.mem_map] at update
    obtain ⟨j, inPart, rfl⟩ := update
    have inRounds := ((GridStride.mem_rounds inGrid).mp round).1
    rw [shaped.coefficients] at inside
    exact ⟨_, part_lt even inRounds (List.mem_range.mp inPart), _, inLimb, _, inside, rfl⟩
  · rintro ⟨place, inPlaces, limb, inLimb, idx, inside, rfl⟩
    have inParts : place < call.split partb * partb * call.its partb := by
      calc place < call.stride * partb := inPlaces
        _ = call.split partb * partb * call.its partb := by rw [← even]; ring
    obtain ⟨inRounds, inPart, whole⟩ := place_split inParts
    have inGrid := Nat.mod_lt (place / call.its partb) positive
    refine ⟨_, ⟨⟨place / call.its partb % call.gridz partb, limb, idx⟩, ?_, place / call.its partb,
      (GridStride.mem_rounds inGrid).mpr ⟨inRounds, rfl⟩, rfl⟩, ?_⟩
    · exact mem_threads.mpr ⟨inGrid, inLimb, by rw [shaped.coefficients]; exact inside⟩
    · rw [updates_passOf even, List.mem_map]
      exact ⟨place % call.its partb, List.mem_range.mpr inPart, by rw [whole]⟩

theorem passes_nodup : ((launch.passes call partb).flatMap Visit.updates).Nodup := by
  have positive := shaped.gridz_pos
  rw [Launch.passes, List.flatMap_assoc]
  refine PartialLists.nodup_flatMap_of_key
    (fun visit => ⟨visit.target.1 / call.its partb % call.gridz partb, visit.limb, visit.idx⟩)
    threads_nodup ?_ ?_
  · intro thread _
    rw [List.flatMap_map]
    refine PartialLists.nodup_flatMap_of_key (fun visit => visit.target.1 / call.its partb)
      (GridStride.rounds_nodup positive) ?_ ?_
    · intro i _
      rw [updates_passOf even]
      refine PartialLists.nodup_map_of_key (fun visit => visit.target.1 % call.its partb)
        List.nodup_range ?_
      intro j inPart
      exact Nat.mul_add_mod_of_lt (List.mem_range.mp inPart)
    · intro i _ visit update
      rw [updates_passOf even, List.mem_map] at update
      obtain ⟨j, inPart, rfl⟩ := update
      exact place_div (List.mem_range.mp inPart)
  · intro thread inThreads visit update
    rw [List.mem_flatMap] at update
    obtain ⟨pass, member, update⟩ := update
    obtain ⟨i, round, rfl⟩ := List.mem_map.mp member
    rw [updates_passOf even, List.mem_map] at update
    obtain ⟨j, inPart, rfl⟩ := update
    have inGrid := (mem_threads.mp inThreads).1
    obtain ⟨z, limb, idx⟩ := thread
    simp only [Thread.mk.injEq]
    refine ⟨?_, rfl, rfl⟩
    change (i * call.its partb + j) / call.its partb % call.gridz partb = z
    rw [place_div (List.mem_range.mp inPart)]
    exact ((GridStride.mem_rounds inGrid).mp round).2

variable {work : Work}

omit even shaped in
/-- The launches of a call have no update in common. -/
theorem nodup_launches (distinct : work.Distinct) {part : Launch → List Visit}
    (each : ∀ launch ∈ work.launches, (part launch).Nodup)
    (own : ∀ launch ∈ work.launches, ∀ visit ∈ part launch, visit.target.2 = launch.special) :
    (work.launches.flatMap part).Nodup := by
  rw [List.nodup_flatMap]
  refine ⟨each, ?_⟩
  have apart := List.pairwise_map.mp distinct
  refine List.Pairwise.imp_of_mem ?_ apart
  intro first second firstIn secondIn different visit inFirst inSecond
  exact different ((own first firstIn visit inFirst).symm.trans (own second secondIn visit inSecond))

/-- The passes of all threads make each update once. -/
theorem work_updates_nodup (distinct : work.Distinct) :
    ((work.launches.flatMap fun launch => launch.passes call partb).flatMap Visit.updates).Nodup := by
  rw [List.flatMap_assoc]
  apply nodup_launches distinct
  · intro launch _
    exact passes_nodup shaped even
  · intro launch _ visit update
    obtain ⟨place, -, limb, -, idx, -, rfl⟩ := (mem_passes shaped even).mp update
    rfl

theorem mem_work_updates {visit : Visit} :
    visit ∈ (work.launches.flatMap fun launch => launch.passes call partb).flatMap Visit.updates ↔
      work.Updated call partb visit := by
  rw [List.flatMap_assoc, List.mem_flatMap]
  simp only [mem_passes shaped even, Work.Updated]

omit even in
theorem mem_loop {visit : Visit} :
    visit ∈ work.loop call partb ↔ work.Updated call partb visit := by
  have positive := shaped.stride_pos
  have single : ∀ (launch : Launch) (i j : Nat), j < call.stride → ∀ limb idx,
      launch.updateOf call (call.stride * i + j) limb idx =
        ⟨launch.kernel, call.primeid launch.special limb, limb, idx,
          launch.kernel.operand (call.isU64 (call.primeid launch.special limb)) launch.special i
            (call.primeid launch.special limb),
          [.target (call.stride * i + j) launch.special]⟩ := by
    intro launch i j inStride limb idx
    have row : (call.stride * i + j) / call.stride = i := by
      rw [mul_comm, place_div inStride]
    simp only [Launch.updateOf, row]
  simp only [Work.loop, Launch.single, List.mem_flatMap, List.mem_map, List.mem_range, Work.Updated]
  constructor
  · rintro ⟨i, inSources, j, inStride, launch, member, limb, inLimb, idx, inside, rfl⟩
    refine ⟨launch, member, call.stride * i + j, ?_, limb, inLimb, idx, inside, ?_⟩
    · rw [mul_comm call.stride i, mul_comm call.stride partb]
      exact place_lt inSources inStride
    · exact (single launch i j inStride limb idx).symm
  · rintro ⟨launch, member, place, inPlaces, limb, inLimb, idx, inside, rfl⟩
    rw [mul_comm] at inPlaces
    obtain ⟨inSources, inStride, whole⟩ := place_split inPlaces
    refine ⟨place / call.stride, inSources, place % call.stride, inStride, launch, member, limb,
      inLimb, idx, inside, ?_⟩
    rw [← single launch _ _ inStride, mul_comm call.stride, whole]

omit even shaped in
theorem loop_nodup (distinct : work.Distinct) : (work.loop call partb).Nodup := by
  have row : ∀ {i j : Nat}, j < call.stride → (call.stride * i + j) / call.stride = i := by
    intro i j inStride
    rw [mul_comm, place_div inStride]
  have target : ∀ {launch : Launch} {i place : Nat} {visit : Visit},
      visit ∈ launch.single call i place → visit.target = (place, launch.special) := by
    intro launch i place visit member
    simp only [Launch.single, List.mem_flatMap, List.mem_map] at member
    obtain ⟨limb, _, idx, _, rfl⟩ := member
    rfl
  refine PartialLists.nodup_flatMap_of_key (fun visit => visit.target.1 / call.stride)
    List.nodup_range ?_ ?_
  · intro i _
    refine PartialLists.nodup_flatMap_of_key (fun visit => visit.target.1 % call.stride)
      List.nodup_range ?_ ?_
    · intro j _
      apply nodup_launches distinct
      · intro launch _
        refine PartialLists.nodup_flatMap_of_key Visit.limb List.nodup_range ?_ ?_
        · intro limb _
          exact PartialLists.nodup_map_of_key Visit.idx List.nodup_range fun _ _ => rfl
        · intro limb _ visit member
          obtain ⟨idx, _, rfl⟩ := List.mem_map.mp member
          rfl
      · intro launch _ visit member
        rw [target member]
    · intro j inStride visit member
      obtain ⟨launch, _, update⟩ := List.mem_flatMap.mp member
      rw [target update]
      change (call.stride * i + j) % call.stride = j
      rw [mul_comm]
      exact Nat.mul_add_mod_of_lt (List.mem_range.mp inStride)
  · intro i _ visit member
    obtain ⟨j, inStride, update⟩ := List.mem_flatMap.mp member
    obtain ⟨launch, _, update⟩ := List.mem_flatMap.mp update
    rw [target update]
    exact row (List.mem_range.mp inStride)

/-- Even parts make exactly the updates of the loop of single operations. -/
theorem updates_perm (distinct : work.Distinct) :
    ((work.launches.flatMap fun launch => launch.passes call partb).flatMap Visit.updates).Perm
      (work.loop call partb) := by
  rw [List.perm_ext_iff_of_nodup (work_updates_nodup shaped even distinct)
    (loop_nodup distinct)]
  intro visit
  rw [mem_work_updates shaped even, mem_loop shaped]

end Passes
end Fideslib.ManyToOne
