/-
This file proves that even parts leave the memory that the loop of single operations leaves.
-/

import Fideslib.Kernels.ManyToOneLaw

namespace Fideslib.ManyToOne

open Scatter (Acts)

section Memory

variable (call : Call) (operands : Operands) (start : Memory)

/-- The coefficients of the targets change. -/
def Operands.Own (cell : Cell) : Prop := cell.operand ∈ operands.parta

/-- These are the words that an update loads from the first memory. -/
def Visit.words (visit : Visit) : List Nat :=
  (visit.loads.mapM (operands.loadWord visit.kernel start visit.limb visit.idx)).getD []

def Visit.cell (visit : Visit) : Cell :=
  ⟨operands.parta.getD visit.target.1 0, visit.target.2, visit.limb, visit.idx⟩

/-- An update replaces the coefficient of its target. -/
def Visit.write (visit : Visit) : Cell × (Nat → Nat) :=
  (visit.cell operands, visit.kernel.word call.cc (call.isU64 visit.primeid) visit.primeid
    ((visit.words operands start).getD 0 0) ((visit.words operands start).getD 1 0))

/-- The operands of a launch have a word for each limb. -/
def Launch.Supplied (launch : Launch) (partb : Nat) : Prop :=
  ∀ i < partb, ∀ limb < launch.limbs, ∀ load ∈ launch.kernel.operand
    (call.isU64 (call.primeid launch.special limb)) launch.special i
      (call.primeid launch.special limb),
    if launch.kernel.scalar then (operands.scalarWord load.entry).isSome
    else ∃ part, part ∉ operands.parta ∧ ∀ idx, operands.cell limb idx load.entry =
      some ⟨part, launch.special, limb, idx⟩

end Memory

section Passes

variable {call : Call} {operands : Operands} {start : Memory} {partb : Nat}

/-- The words of an operand stay what they were at the start. -/
theorem loads_kept {launch : Launch} (supplied : launch.Supplied call operands partb)
    {i limb : Nat} (inside : i < partb) (inLimb : limb < launch.limbs) (idx : Nat)
    {memory : Memory} (agrees : ∀ cell, ¬operands.Own cell → memory cell = start cell) :
    ∃ words, (launch.kernel.operand (call.isU64 (call.primeid launch.special limb)) launch.special i
        (call.primeid launch.special limb)).mapM
          (operands.loadWord launch.kernel memory limb idx) = some words ∧
      (launch.kernel.operand (call.isU64 (call.primeid launch.special limb)) launch.special i
        (call.primeid launch.special limb)).mapM
          (operands.loadWord launch.kernel start limb idx) = some words := by
  have same : ∀ load ∈ launch.kernel.operand (call.isU64 (call.primeid launch.special limb))
      launch.special i (call.primeid launch.special limb),
      operands.loadWord launch.kernel memory limb idx load =
          some ((operands.loadWord launch.kernel start limb idx load).getD 0) ∧
        operands.loadWord launch.kernel start limb idx load =
          some ((operands.loadWord launch.kernel start limb idx load).getD 0) := by
    intro load member
    have found := supplied i inside limb inLimb load member
    unfold Operands.loadWord
    by_cases scalar : launch.kernel.scalar = true
    · rw [if_pos scalar] at found
      obtain ⟨word, present⟩ := Option.isSome_iff_exists.mp found
      simp only [scalar, if_true, present, Option.map_some, Option.getD_some, and_self]
    · rw [if_neg scalar] at found
      obtain ⟨part, foreign, leads⟩ := found
      have kept := agrees ⟨part, launch.special, limb, idx⟩ foreign
      simp only [scalar, Bool.false_eq_true, if_false, leads, Option.map_some, Option.getD_some, kept, and_self]
  exact ⟨_, PartialLists.mapM_eq_map fun load member => (same load member).1,
    PartialLists.mapM_eq_map fun load member => (same load member).2⟩

/-- A pass over targets of its launch makes one write for each of them. -/
theorem execute_acts {launch : Launch} (supplied : launch.Supplied call operands partb)
    {visit : Visit} {i : Nat} (inside : i < partb) (inLimb : visit.limb < launch.limbs)
    (kernel : visit.kernel = launch.kernel)
    (loads : visit.loads = launch.kernel.operand
      (call.isU64 (call.primeid launch.special visit.limb)) launch.special i
        (call.primeid launch.special visit.limb))
    (targets : ∀ target ∈ visit.targets, ∃ place < operands.parta.length,
      target = .target place launch.special) :
    Acts operands.Own start (visit.execute call operands)
      (visit.updates.map (Visit.write call operands start)) := by
  have cells : ∀ target ∈ visit.targets, operands.cell visit.limb visit.idx target =
      some (({ visit with targets := [target] } : Visit).cell operands) ∧
        operands.Own (({ visit with targets := [target] } : Visit).cell operands) := by
    intro target member
    obtain ⟨place, there, rfl⟩ := targets target member
    have found : operands.parta.getD place 0 = operands.parta[place] := by
      rw [List.getD_eq_getElem?_getD, List.getElem?_eq_getElem there, Option.getD_some]
    refine ⟨?_, ?_⟩
    · simp only [Operands.cell, List.getElem?_eq_getElem there, Option.map_some, Visit.cell,
        Visit.target, List.headD_cons, found]
    · change operands.parta.getD place 0 ∈ operands.parta
      rw [found]
      exact List.getElem_mem there
  refine ⟨?_, ?_⟩
  · intro write member
    simp only [Visit.updates, List.map_map, List.mem_map] at member
    obtain ⟨target, inTargets, rfl⟩ := member
    exact (cells target inTargets).2
  · intro memory agrees
    obtain ⟨words, now, before⟩ := loads_kept supplied inside inLimb visit.idx agrees
    rw [← loads, ← kernel] at now before
    have own : ∀ target, ({ visit with targets := [target] } : Visit).words operands start = words := by
      intro target
      simp only [Visit.words, before, Option.getD_some]
    have steps : ∀ target ∈ visit.targets, ∀ memory : Memory, (do
        let cell ← operands.cell visit.limb visit.idx target
        let word := visit.kernel.word call.cc (call.isU64 visit.primeid) visit.primeid
          (words.getD 0 0) (words.getD 1 0) (memory cell)
        return Function.update memory cell word) =
      some (Function.update memory (({ visit with targets := [target] } : Visit).cell operands)
        (visit.kernel.word call.cc (call.isU64 visit.primeid) visit.primeid (words.getD 0 0)
          (words.getD 1 0)
          (memory (({ visit with targets := [target] } : Visit).cell operands)))) := by
      intro target member memory
      rw [(cells target member).1]
      rfl
    rw [Visit.execute, now, Option.bind_eq_bind, Option.bind_some,
      PartialLists.foldlM_eq_foldl memory steps]
    simp only [Scatter.modify, Visit.updates, List.map_map, List.foldl_map, Function.comp_def,
      Visit.write, own]

variable (shaped : call.Shaped partb)
variable (even : call.its partb * call.split partb = call.stride)
variable (length : operands.parta.length = call.parta)
include shaped length

/-- A single operation writes the coefficients of its target. -/
theorem loop_acts {work : Work}
    (supplied : ∀ launch ∈ work.launches, launch.Supplied call operands partb) :
    Acts operands.Own start
      (fun memory => (work.loop call partb).foldlM
        (fun memory visit => visit.execute call operands memory) memory)
      ((work.loop call partb).map (Visit.write call operands start)) := by
  have each : ∀ visit ∈ work.loop call partb, Acts operands.Own start
      (fun memory => visit.execute call operands memory) [visit.write call operands start] := by
    intro visit member
    obtain ⟨launch, inLaunches, place, inPlaces, limb, inLimb, idx, inside, rfl⟩ :=
      (mem_loop shaped).mp member
    have row : place / call.stride < partb := Nat.div_lt_of_lt_mul inPlaces
    refine execute_acts (supplied launch inLaunches) row inLimb rfl rfl ?_
    intro target only
    rw [length, shaped.parta]
    exact ⟨place, inPlaces, List.mem_singleton.mp only⟩
  have all := Acts.foldlM each
  rwa [← List.map_eq_flatMap] at all

section Run

include even

theorem runThread_acts {launch : Launch} {table : Table} (loaded : launch.Loaded call partb table)
    (supplied : launch.Supplied call operands partb) {thread : Thread}
    (inGrid : thread.z < call.gridz partb) (inLimb : thread.limb < launch.limbs) :
    Acts operands.Own start (fun memory => launch.runThread call operands table partb memory thread)
      ((GridStride.rounds (call.split partb * partb) (call.gridz partb) thread.z).flatMap fun i =>
        (launch.passOf call partb thread i).updates.map (Visit.write call operands start)) := by
  unfold Launch.runThread
  rw [shaped.rounds_eq even]
  apply Acts.foldlM
  intro i round
  have inRounds := ((GridStride.mem_rounds inGrid).mp round).1
  rw [visit_eq even loaded inLimb inRounds]
  have row : i / call.split partb < partb := Nat.div_lt_of_lt_mul inRounds
  refine execute_acts supplied row inLimb rfl rfl ?_
  intro target member
  obtain ⟨j, inPart, rfl⟩ := List.mem_map.mp member
  rw [length, shaped.parta]
  exact ⟨_, part_lt even inRounds (List.mem_range.mp inPart), rfl⟩

theorem run_acts {work : Work} (loaded : ∀ launch ∈ work.launches, launch.Loaded call partb work.table)
    (supplied : ∀ launch ∈ work.launches, launch.Supplied call operands partb)
    {orders : Launch → List Thread}
    (order : ∀ launch ∈ work.launches, (orders launch).Perm (launch.threads call (call.gridz partb))) :
    Acts operands.Own start (work.run call operands partb orders)
      (work.launches.flatMap fun launch => (orders launch).flatMap fun thread =>
        (GridStride.rounds (call.split partb * partb) (call.gridz partb) thread.z).flatMap fun i =>
          (launch.passOf call partb thread i).updates.map (Visit.write call operands start)) := by
  apply Acts.foldlM
  intro launch inLaunches
  apply Acts.foldlM
  intro thread inOrder
  have inThreads := mem_threads.mp ((order launch inLaunches).mem_iff.mp inOrder)
  exact runThread_acts shaped even length (loaded launch inLaunches) (supplied launch inLaunches)
    inThreads.1 inThreads.2.1

end Run

/-- The coefficients of distinct targets are distinct. -/
theorem cells_nodup {work : Work} (distinct : work.Distinct) (apart : operands.parta.Nodup) :
    (((work.loop call partb).map (Visit.write call operands start)).map Prod.fst).Nodup := by
  rw [List.map_map]
  refine List.Nodup.map_on ?_ (loop_nodup distinct)
  intro first firstIn second secondIn same
  obtain ⟨launch, inLaunches, place, inPlaces, limb, inLimb, idx, inside, rfl⟩ :=
    (mem_loop shaped).mp firstIn
  obtain ⟨other, otherIn, place', inPlaces', limb', inLimb', idx', inside', rfl⟩ :=
    (mem_loop shaped).mp secondIn
  have specials : launch.special = other.special := congrArg Cell.special same
  have limbs : limb = limb' := congrArg Cell.limb same
  have coefficients : idx = idx' := congrArg Cell.idx same
  have parts : operands.parta.getD place 0 = operands.parta.getD place' 0 :=
    congrArg Cell.operand same
  rw [← shaped.parta, ← length] at inPlaces inPlaces'
  rw [List.getD_eq_getElem _ _ inPlaces, List.getD_eq_getElem _ _ inPlaces'] at parts
  have places : place = place' := (List.Nodup.getElem_inj_iff apart).mp parts
  have launches : launch = other := List.inj_on_of_nodup_map distinct inLaunches otherIn specials
  rw [places, limbs, coefficients, launches]

include even

/-- The threads of even parts leave what the loop of single operations leaves, in any order. -/
theorem run_eq_loop {work : Work} (distinct : work.Distinct) (apart : operands.parta.Nodup)
    (loaded : ∀ launch ∈ work.launches, launch.Loaded call partb work.table)
    (supplied : ∀ launch ∈ work.launches, launch.Supplied call operands partb)
    {orders : Launch → List Thread}
    (order : ∀ launch ∈ work.launches, (orders launch).Perm (launch.threads call (call.gridz partb)))
    (memory : Memory) :
    ∃ after, work.run call operands partb orders memory = some after ∧
      (work.loop call partb).foldlM
        (fun memory visit => visit.execute call operands memory) memory = some after := by
  have batch := (run_acts shaped even length loaded supplied order).runs memory fun _ _ => rfl
  have loop := (loop_acts shaped length supplied).runs memory fun _ _ => rfl
  refine ⟨_, batch, ?_⟩
  rw [loop, Option.some.injEq]
  refine Scatter.modify_perm ?_ (cells_nodup shaped length distinct apart) memory
  have updates := (updates_perm shaped even distinct).map (Visit.write call operands memory)
  refine updates.symm.trans ?_
  rw [List.flatMap_assoc, List.map_flatMap]
  refine List.Perm.flatMap_left _ fun launch inLaunches => ?_
  rw [Launch.passes, List.flatMap_assoc, List.map_flatMap]
  refine ((order launch inLaunches).symm.flatMap_right _).trans (List.Perm.of_eq ?_)
  congr 1
  funext thread
  rw [List.flatMap_map, List.map_flatMap]

end Passes
end Fideslib.ManyToOne
