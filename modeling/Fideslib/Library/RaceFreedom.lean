/-
This file shows that programs whose accesses are kept apart by barriers have one result.
-/

import Fideslib.Library.ThreadBlock

namespace ThreadBlock

variable {Thread Register Cell Value : Type}

/-- Two accesses of one cell conflict where one of them is a write. -/
def Conflict (first : Instruction Thread Register Cell Value) (thread : Thread)
    (second : Instruction Thread Register Cell Value) (other : Thread) (cell : Cell) : Prop :=
  (first.writes thread cell ∧ (second.reads other cell ∨ second.writes other cell)) ∨
    (first.reads thread cell ∧ second.writes other cell)

/-- Between two accesses in conflict the later thread waits for the earlier one. -/
def RaceFree (joined : Thread → Thread → Prop) (threads : List Thread)
    (program : Program Thread Register Cell Value) : Prop :=
  ∀ (i j : Nat) (first second : Instruction Thread Register Cell Value), i ≤ j →
    program[i]? = some first → program[j]? = some second →
    ∀ thread ∈ threads, ∀ other ∈ threads, thread ≠ other → ∀ cell,
      Conflict first thread second other cell →
        ∃ k, ∃ stop : Instruction Thread Register Cell Value, i < k ∧ k ≤ j ∧
          program[k]? = some stop ∧ stop.waits joined other thread

section Determinism

variable [DecidableEq Thread] [DecidableEq Register] [DecidableEq Cell]
  {joined : Thread → Thread → Prop} {threads : List Thread}
  {program : Program Thread Register Cell Value}   {machine : Machine Thread Register Cell Value}

/-- This is the state after some instructions of all threads. -/
def stage (threads : List Thread) (program : Program Thread Register Cell Value)
    (machine : Machine Thread Register Cell Value) (i : Nat) : Machine Thread Register Cell Value :=
  lockstep threads (program.take i) machine

theorem stage_succ {i : Nat} {instruction : Instruction Thread Register Cell Value}
    (here : program[i]? = some instruction) :
    stage threads program machine (i + 1) =
      sweep threads instruction (stage threads program machine i) := by
  rw [stage, List.take_add_one, here, lockstep_append]
  rfl

/-- No thread writes this cell in the meantime. -/
theorem stage_memory_kept {cell : Cell} {i j : Nat} (order : i ≤ j)
    (quiet : ∀ k instruction, i ≤ k → k < j → program[k]? = some instruction →
      ∀ thread ∈ threads, ¬instruction.writes thread cell) :
    (stage threads program machine j).memory cell =
      (stage threads program machine i).memory cell := by
  induction j, order using Nat.le_induction with
  | base => rfl
  | succ j order inductionHypothesis =>
      have before := inductionHypothesis fun k instruction low high =>
        quiet k instruction low (by omega)
      cases here : program[j]? with
      | none =>
          have long : program.length ≤ j := List.getElem?_eq_none_iff.mp here
          rw [← before, stage, stage, List.take_of_length_le long,
            List.take_of_length_le (by omega)]
      | some instruction =>
          rw [stage_succ here, sweep_memory_other, before]
          intro thread listed
          exact quiet j instruction order (Nat.lt_succ_self j) here thread listed

/-- A cell agrees with a stage when exactly the writes before this stage have been carried out. -/
def Current (threads : List Thread) (program : Program Thread Register Cell Value)
    (config : Config Thread Register Cell Value) (cell : Cell) (i : Nat) : Prop :=
  ∀ thread ∈ threads, ∀ k instruction, program[k]? = some instruction →
    instruction.writes thread cell → (k < config.progress thread ↔ k < i)

/-- Threads that have gone past a barrier have seen the threads that they wait for. -/
structure Consistent (joined : Thread → Thread → Prop) (threads : List Thread)
    (program : Program Thread Register Cell Value)
    (machine : Machine Thread Register Cell Value)
    (config : Config Thread Register Cell Value) : Prop where
  bounded : ∀ thread ∈ threads, config.progress thread ≤ program.length
  waited : ∀ thread ∈ threads, ∀ k instruction, k < config.progress thread →
    program[k]? = some instruction → ∀ other ∈ threads, instruction.waits joined thread other →
      k ≤ config.progress other
  registers : ∀ thread ∈ threads, config.machine.registers thread =
    (stage threads program machine (config.progress thread)).registers thread
  memory : ∀ cell i, Current threads program config cell i →
    config.machine.memory cell = (stage threads program machine i).memory cell

theorem Consistent.start (machine : Machine Thread Register Cell Value) :
    Consistent joined threads program machine (Config.start machine) where
  bounded := fun _ _ => Nat.zero_le _
  waited := fun _ _ _ _ early => absurd early (Nat.not_lt_zero _)
  registers := fun _ _ => rfl
  memory := by
    intro cell i current
    symm
    apply stage_memory_kept (Nat.zero_le i)
    intro k instruction _ early here thread inside writes
    exact Nat.not_lt_zero k ((current thread inside k instruction here writes).mpr early)

section Step

variable {before after : Config Thread Register Cell Value} {thread : Thread}

section Moving

variable (free : RaceFree joined threads program)
  (consistent : Consistent joined threads program machine before) (inside : thread ∈ threads)
include free consistent inside

/-- A later access of another thread in conflict with this instruction has not been made. -/
theorem not_passed {instruction second : Instruction Thread Register Cell Value}
    (here : program[before.progress thread]? = some instruction) {other : Thread} {j : Nat}
    (near : other ∈ threads) (different : thread ≠ other) (order : before.progress thread ≤ j)
    (there : program[j]? = some second) {cell : Cell}
    (conflict : Conflict instruction thread second other cell) : before.progress other ≤ j := by
  obtain ⟨k, stop, low, high, found, waits⟩ :=
    free _ j instruction second order here there thread inside other near different cell conflict
  by_contra passed
  have seen := consistent.waited other near k stop (by omega) found thread inside waits
  omega

/-- An earlier access of another thread in conflict with this instruction has been made. -/
theorem passed {first instruction : Instruction Thread Register Cell Value}
    (here : program[before.progress thread]? = some instruction)
    (ready : ∀ other ∈ threads, instruction.waits joined thread other →
      before.progress thread ≤ before.progress other) {other : Thread} {j : Nat}
    (near : other ∈ threads) (different : thread ≠ other) (order : j < before.progress thread)
    (there : program[j]? = some first) {cell : Cell}
    (conflict : Conflict first other instruction thread cell) : j < before.progress other := by
  obtain ⟨k, stop, low, high, found, waits⟩ := free j _ first instruction order.le there here
    other near thread inside different.symm cell conflict
  rcases Nat.lt_or_ge k (before.progress thread) with early | late
  · have seen := consistent.waited thread inside k stop early found other near waits
    omega
  · obtain rfl : k = before.progress thread := by omega
    rw [here] at found
    obtain rfl := Option.some.inj found
    have seen := ready other near waits
    omega

/-- A cell that the next instruction reads holds the word of its stage. -/
theorem current_of_reads {instruction : Instruction Thread Register Cell Value}
    (here : program[before.progress thread]? = some instruction)
    (ready : ∀ other ∈ threads, instruction.waits joined thread other →
      before.progress thread ≤ before.progress other) {cell : Cell}
    (reads : instruction.reads thread cell) :
    Current threads program before cell (before.progress thread) := by
  intro other near k writer there writes
  rcases eq_or_ne thread other with rfl | different
  · rfl
  constructor
  · intro done
    by_contra late
    have short := not_passed free consistent inside here near different (by omega) there
      (.inr ⟨reads, writes⟩)
    omega
  · intro early
    exact passed free consistent inside here ready near different early there
      (.inl ⟨writes, .inl reads⟩)

/-- The registers of the thread that moves are those of the next stage. -/
theorem registers_step (once : threads.Nodup) {instruction : Instruction Thread Register Cell Value}
    (here : program[before.progress thread]? = some instruction)
    (ready : ∀ other ∈ threads, instruction.waits joined thread other →
      before.progress thread ≤ before.progress other) :
    (instruction.act thread before.machine).registers thread =
      (stage threads program machine (before.progress thread + 1)).registers thread := by
  rw [stage_succ here, sweep_registers once inside]
  apply act_registers (consistent.registers thread inside)
  intro cell reads
  exact consistent.memory cell _ (current_of_reads free consistent inside here ready reads)

/-- A cell that the thread writes holds its word until another thread writes it. -/
theorem memory_step (once : threads.Nodup) {instruction : Instruction Thread Register Cell Value}
    (here : program[before.progress thread]? = some instruction) {cell : Cell}
    (written : instruction.writes thread cell) {i : Nat} (late : before.progress thread < i)
    (current : ∀ other ∈ threads, other ≠ thread → ∀ k writer, program[k]? = some writer →
      writer.writes other cell → k < i → k < before.progress other)
    (own : ∀ k writer, program[k]? = some writer → writer.writes thread cell → k < i →
      k ≤ before.progress thread) :
    (instruction.act thread before.machine).memory cell =
      (stage threads program machine i).memory cell := by
  have next : (stage threads program machine (before.progress thread + 1)).memory cell =
      (instruction.act thread before.machine).memory cell := by
    rw [stage_succ here, sweep_memory once inside written]
    · exact act_memory (consistent.registers thread inside).symm written
    · intro other listed writes
      by_contra different
      obtain ⟨k, -, low, high, -⟩ := free _ _ instruction instruction le_rfl here here thread
        inside other listed (Ne.symm different) cell
        (.inl ⟨written, .inr writes⟩)
      omega
  rw [← next]
  symm
  apply stage_memory_kept late
  intro k writer low high there other near writes
  rcases eq_or_ne other thread with rfl | different
  · have bound := own k writer there writes high
    omega
  · have done := current other near different k writer there writes high
    have short := not_passed free consistent inside here near different.symm (by omega) there
      (.inl ⟨written, .inr writes⟩)
    omega

end Moving

/-- Each step of a program without races keeps the threads consistent. -/
theorem Consistent.step (once : threads.Nodup) (free : RaceFree joined threads program)
    (consistent : Consistent joined threads program machine before)
    (moves : Step joined threads program thread before after) :
    Consistent joined threads program machine after := by
  have inside := moves.inside
  obtain ⟨instruction, here, ready, moved⟩ := moves.moves
  have own : after.progress thread = before.progress thread + 1 := by
    rw [moves.advances, Function.update_self]
  have others {other : Thread} (different : other ≠ thread) :
      after.progress other = before.progress other := by
    rw [moves.advances, Function.update_of_ne different]
  have grows (other : Thread) : before.progress other ≤ after.progress other := by
    rcases eq_or_ne other thread with rfl | different
    · omega
    · rw [others different]
  refine ⟨?_, ?_, ?_, ?_⟩
  · intro other near
    rcases eq_or_ne other thread with rfl | different
    · have short := (List.getElem?_eq_some_iff.mp here).1
      omega
    · rw [others different]
      exact consistent.bounded other near
  · intro other near k stop early found third close waits
    apply le_trans _ (grows third)
    rcases eq_or_ne other thread with rfl | different
    · rcases Nat.lt_or_ge k (before.progress other) with past | now
      · exact consistent.waited other near k stop past found third close waits
      · obtain rfl : k = before.progress other := by omega
        rw [here] at found
        obtain rfl := Option.some.inj found
        exact ready third close waits
    · rw [others different] at early
      exact consistent.waited other near k stop early found third close waits
  · intro other near
    rw [moved]
    rcases eq_or_ne other thread with rfl | different
    · rw [own]
      exact registers_step free consistent inside once here ready
    · rw [act_registers_other different, others different]
      exact consistent.registers other near
  · intro cell i current
    rw [moved]
    by_cases written : instruction.writes thread cell
    · have late := (current thread inside _ instruction here written).mp (by omega)
      apply memory_step free consistent inside once here written late
      · intro other near different k writer there writes early
        have done := (current other near k writer there writes).mpr early
        rwa [others different] at done
      · intro k writer there writes early
        have done := (current thread inside k writer there writes).mpr early
        omega
    · rw [act_memory_other written]
      apply consistent.memory
      intro other near k writer there writes
      rw [← current other near k writer there writes]
      rcases eq_or_ne other thread with rfl | different
      · rw [own]
        constructor
        · intro done
          omega
        · intro done
          by_contra early
          obtain rfl : k = before.progress other := by omega
          rw [here] at there
          obtain rfl := Option.some.inj there
          exact written writes
      · rw [others different]

end Step

/-- Every order of the steps of a program without races ends in the same memory. -/
theorem finished_memory (once : threads.Nodup) (free : RaceFree joined threads program)
    {config : Config Thread Register Cell Value}
    (reaches : Reaches joined threads program machine config)
    (finished : config.Finished threads program) :
    config.machine.memory = (lockstep threads program machine).memory := by
  have consistent : Consistent joined threads program machine config :=
    reaches.invariant _ (Consistent.start machine)
      fun _ _ _ _ moves consistent => consistent.step once free moves
  funext cell
  rw [consistent.memory cell program.length, stage, List.take_length]
  intro thread inside k instruction _ _
  rw [finished thread inside]

end Determinism

section Separation

variable {joined : Thread → Thread → Prop} {threads : List Thread}

/-- The first thread has accessed a cell, and the second one has not waited for it since. -/
structure History (Thread Cell : Type) where
  read : Thread → Thread → Cell → Prop
  written : Thread → Thread → Cell → Prop

namespace History

def empty : History Thread Cell := ⟨fun _ _ _ => False, fun _ _ _ => False⟩

/-- A thread that waits for another one has no longer missed its accesses. -/
def after (joined : Thread → Thread → Prop) (history : History Thread Cell)
    (instruction : Instruction Thread Register Cell Value) : History Thread Cell where
  read := fun thread other cell =>
    (history.read thread other cell ∧ ¬instruction.waits joined other thread) ∨
      instruction.reads thread cell
  written := fun thread other cell =>
    (history.written thread other cell ∧ ¬instruction.waits joined other thread) ∨
      instruction.writes thread cell

/-- No access of another thread that has been missed is in conflict with the instruction. -/
def Allows (joined : Thread → Thread → Prop) (threads : List Thread) (history : History Thread Cell)
    (instruction : Instruction Thread Register Cell Value) : Prop :=
  ∀ thread ∈ threads, ∀ other ∈ threads, thread ≠ other → ∀ cell,
    (instruction.writes other cell → ¬instruction.writes thread cell) ∧
      (¬instruction.waits joined other thread →
        (instruction.writes other cell → ¬history.read thread other cell) ∧
          (instruction.reads other cell ∨ instruction.writes other cell →
            ¬history.written thread other cell))

/-- One history has missed no more than another. -/
structure Within (threads : List Thread) (history bound : History Thread Cell) : Prop where
  read : ∀ thread ∈ threads, ∀ other ∈ threads, thread ≠ other → ∀ cell,
    history.read thread other cell → bound.read thread other cell
  written : ∀ thread ∈ threads, ∀ other ∈ threads, thread ≠ other → ∀ cell,
    history.written thread other cell → bound.written thread other cell

variable {history bound : History Thread Cell}
  {instruction : Instruction Thread Register Cell Value}

theorem Within.allows (within : Within threads history bound)
    (allows : bound.Allows joined threads instruction) :
    history.Allows joined threads instruction := by
  intro thread inside other near different cell
  obtain ⟨single, missed⟩ := allows thread inside other near different cell
  refine ⟨single, fun open_ => ?_⟩
  obtain ⟨noRead, noWrite⟩ := missed open_
  exact ⟨fun writes read =>
      noRead writes (within.read thread inside other near different cell read),
    fun access written =>
      noWrite access (within.written thread inside other near different cell written)⟩

theorem Within.after (within : Within threads history bound)
    (instruction : Instruction Thread Register Cell Value) :
    Within threads (history.after joined instruction) (bound.after joined instruction) where
  read := fun thread inside other near different cell missed =>
    missed.imp_left (And.imp_left (within.read thread inside other near different cell))
  written := fun thread inside other near different cell missed =>
    missed.imp_left (And.imp_left (within.written thread inside other near different cell))

theorem Within.refl (history : History Thread Cell) : Within threads history history :=
  ⟨fun _ _ _ _ _ _ => id, fun _ _ _ _ _ _ => id⟩

theorem Within.trans {last : History Thread Cell} (first : Within threads history bound)
    (second : Within threads bound last) : Within threads history last where
  read := fun thread inside other near different cell missed =>
    second.read thread inside other near different cell
      (first.read thread inside other near different cell missed)
  written := fun thread inside other near different cell missed =>
    second.written thread inside other near different cell
      (first.written thread inside other near different cell missed)

end History

/-- Each instruction of a program is allowed after those before it. -/
def Apart (joined : Thread → Thread → Prop) (threads : List Thread) :
    History Thread Cell → Program Thread Register Cell Value → Prop
  | _, [] => True
  | history, instruction :: rest =>
      history.Allows joined threads instruction ∧
        Apart joined threads (history.after joined instruction) rest

/-- This is what a program leaves behind. -/
def passedBy (joined : Thread → Thread → Prop) (history : History Thread Cell)
    (program : Program Thread Register Cell Value) : History Thread Cell :=
  program.foldl (History.after joined) history

variable {history bound : History Thread Cell} {program : Program Thread Register Cell Value}

theorem Apart.anti (within : history.Within threads bound)
    (apart : Apart joined threads bound program) : Apart joined threads history program := by
  induction program generalizing history bound with
  | nil => exact trivial
  | cons instruction rest inductionHypothesis =>
      exact ⟨within.allows apart.1, inductionHypothesis (within.after instruction) apart.2⟩

theorem passedBy_within (within : history.Within threads bound)
    (program : Program Thread Register Cell Value) :
    (passedBy joined history program).Within threads (passedBy joined bound program) := by
  induction program generalizing history bound with
  | nil => exact within
  | cons instruction rest inductionHypothesis =>
      exact inductionHypothesis (within.after instruction)

/-- After one history a program is kept apart, and it leaves no more than another history. -/
structure Separated (joined : Thread → Thread → Prop) (threads : List Thread)
    (before : History Thread Cell) (program : Program Thread Register Cell Value)
    (after : History Thread Cell) : Prop where
  apart : Apart joined threads before program
  leaves : (passedBy joined before program).Within threads after

theorem Separated.weaken {before after : History Thread Cell}
    (separated : Separated joined threads bound program after)
    (first : before.Within threads bound) {last : History Thread Cell}
    (second : after.Within threads last) :
    Separated joined threads before program last :=
  ⟨separated.apart.anti first,
    ((passedBy_within first program).trans separated.leaves).trans second⟩

/-- The parts of a program follow each other. -/
theorem Separated.append {before middle after : History Thread Cell}
    {rest : Program Thread Register Cell Value}
    (first : Separated joined threads before program middle)
    (second : Separated joined threads middle rest after) :
    Separated joined threads before (program ++ rest) after := by
  induction program generalizing before with
  | nil => exact second.weaken first.leaves (.refl _)
  | cons instruction program inductionHypothesis =>
      obtain ⟨apart, leaves⟩ := inductionHypothesis ⟨first.apart.2, first.leaves⟩
      exact ⟨⟨first.apart.1, apart⟩, leaves⟩

/-- A barrier accesses no cell. -/
theorem Separated.barrier (stops : Thread → Thread → Prop) (history : History Thread Cell) :
    Separated joined threads history [(.barrier stops : Instruction Thread Register Cell Value)]
      (history.after joined (.barrier stops : Instruction Thread Register Cell Value)) where
  apart := by
    refine ⟨fun _ _ _ _ _ _ =>
      ⟨fun writes => writes.elim, fun _ => ⟨fun writes => writes.elim, ?_⟩⟩, trivial⟩
    rintro (reads | writes)
    · exact reads.elim
    · exact writes.elim
  leaves := .refl _

/-- A history that no instruction of a program leaves bounds what the program leaves behind. -/
theorem separated_of_stable (within : history.Within threads bound)
    (allows : ∀ instruction ∈ program, bound.Allows joined threads instruction)
    (stable : ∀ instruction ∈ program, (bound.after joined instruction).Within threads bound) :
    Separated joined threads history program bound := by
  induction program generalizing history with
  | nil => exact ⟨trivial, within⟩
  | cons instruction rest inductionHypothesis =>
      have next := (within.after instruction).trans (stable instruction List.mem_cons_self)
      obtain ⟨apart, last⟩ := inductionHypothesis next
        (fun other listed => allows other (List.mem_cons_of_mem _ listed))
        (fun other listed => stable other (List.mem_cons_of_mem _ listed))
      exact ⟨⟨within.allows (allows instruction List.mem_cons_self), apart⟩, last⟩

/-- An access in conflict with a missed one comes after the thread has waited. -/
theorem Apart.waits (apart : Apart joined threads history program) {j : Nat}
    {second : Instruction Thread Register Cell Value} (there : program[j]? = some second)
    {thread other : Thread} (inside : thread ∈ threads) (near : other ∈ threads)
    (different : thread ≠ other) {cell : Cell}
    (missed : (history.written thread other cell ∧
        (second.reads other cell ∨ second.writes other cell)) ∨
      (history.read thread other cell ∧ second.writes other cell)) :
    ∃ k, ∃ stop : Instruction Thread Register Cell Value, k ≤ j ∧ program[k]? = some stop ∧
      stop.waits joined other thread := by
  induction program generalizing history j with
  | nil => cases there
  | cons instruction rest inductionHypothesis =>
      obtain ⟨allows, later⟩ := apart
      by_cases stops : instruction.waits joined other thread
      · exact ⟨0, instruction, Nat.zero_le j, rfl, stops⟩
      cases j with
      | zero =>
          obtain rfl : instruction = second := Option.some.inj there
          obtain ⟨noRead, noWrite⟩ := (allows thread inside other near different cell).2 stops
          rcases missed with ⟨written, access⟩ | ⟨read, writes⟩
          · exact absurd written (noWrite access)
          · exact absurd read (noRead writes)
      | succ j =>
          obtain ⟨k, stop, order, found, waits⟩ := inductionHypothesis later there
            (missed.imp (And.imp_left fun written => .inl ⟨written, stops⟩)
              (And.imp_left fun read => .inl ⟨read, stops⟩))
          exact ⟨k + 1, stop, Nat.succ_le_succ order, found, waits⟩

/-- A program whose instructions are kept apart has no races. -/
theorem Apart.raceFree (apart : Apart joined threads history program) :
    RaceFree joined threads program := by
  induction program generalizing history with
  | nil =>
      intro i j first second _ here
      cases here
  | cons instruction rest inductionHypothesis =>
      intro i j first second order here there thread inside other near different cell conflict
      cases i with
      | succ i =>
          cases j with
          | zero => exact absurd order (Nat.not_succ_le_zero i)
          | succ j =>
              obtain ⟨k, stop, low, high, found, waits⟩ := inductionHypothesis apart.2 i j first
                second (Nat.le_of_succ_le_succ order) here there thread inside other near different
                cell conflict
              exact ⟨k + 1, stop, by omega, by omega, found, waits⟩
      | zero =>
          obtain rfl : instruction = first := Option.some.inj here
          cases j with
          | zero =>
              obtain rfl : instruction = second := Option.some.inj there
              exfalso
              have single := (apart.1 thread inside other near different cell).1
              rcases conflict with ⟨writes, reads | again⟩ | ⟨reads, writes⟩
              · cases instruction with
                | store place value => exact reads
                | barrier stops => exact writes
                | load register place => exact writes
                | assign register value => exact writes
              · exact single again writes
              · cases instruction with
                | store place value => exact reads
                | barrier stops => exact writes
                | load register place => exact writes
                | assign register value => exact writes
          | succ j =>
              obtain ⟨k, stop, low, found, waits⟩ := Apart.waits apart.2 there inside near different
                (conflict.imp (And.imp_left .inr) (And.imp_left .inr))
              exact ⟨k + 1, stop, by omega, by omega, found, waits⟩

/-- No two threads write one cell with one instruction. -/
def WritesOnce (threads : List Thread) (program : Program Thread Register Cell Value) : Prop :=
  ∀ instruction ∈ program, ∀ thread ∈ threads, ∀ other ∈ threads, thread ≠ other → ∀ cell,
    instruction.writes other cell → ¬instruction.writes thread cell

theorem WritesOnce.append {rest : Program Thread Register Cell Value}
    (first : WritesOnce threads program) (second : WritesOnce threads rest) :
    WritesOnce threads (program ++ rest) :=
  fun instruction listed =>
    (List.mem_append.mp listed).elim (first instruction) (second instruction)

/-- Threads that move together have no races where they write to different cells. -/
theorem apart_of_joined (together : ∀ thread ∈ threads, ∀ other ∈ threads, joined thread other)
    (single : WritesOnce threads program) : Apart joined threads history program := by
  induction program generalizing history with
  | nil => exact trivial
  | cons instruction rest inductionHypothesis =>
      refine ⟨?_, inductionHypothesis fun other listed =>
        single other (List.mem_cons_of_mem _ listed)⟩
      intro thread inside other near different cell
      refine ⟨single instruction List.mem_cons_self thread inside other near different cell, ?_⟩
      intro open_
      exfalso
      apply open_
      cases instruction with
      | barrier stops => exact .inr (together other near thread inside)
      | load register place => exact together other near thread inside
      | assign register value => exact together other near thread inside
      | store place value => exact together other near thread inside

end Separation

end ThreadBlock
