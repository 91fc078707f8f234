/-
This file develops programs whose threads own the cells that they write.
-/

import Fideslib.Library.RaceFreedom

namespace ThreadBlock

variable {Thread Register Cell Value : Type}

section Ownership

/-- Each thread writes its own cells only, and it reads these and cells that no thread writes. -/
structure Owned (team : List Thread) (own fixed : Thread → Cell → Prop)
    (program : Program Thread Register Cell Value) : Prop where
  reads : ∀ instruction ∈ program, ∀ thread ∈ team, ∀ cell, instruction.reads thread cell →
    own thread cell ∨ fixed thread cell
  writes : ∀ instruction ∈ program, ∀ thread ∈ team, ∀ cell, instruction.writes thread cell →
    own thread cell

/-- No cell has two owners. -/
structure Exclusive (team : List Thread) (own fixed : Thread → Cell → Prop) : Prop where
  single : ∀ thread ∈ team, ∀ other ∈ team, ∀ cell, own thread cell → own other cell →
    thread = other
  kept : ∀ thread ∈ team, ∀ other ∈ team, ∀ cell, own thread cell → ¬fixed other cell

variable {own fixed : Thread → Cell → Prop}
  {program : Program Thread Register Cell Value}

theorem Owned.tail {team : List Thread} {instruction : Instruction Thread Register Cell Value}
    (owned : Owned team own fixed (instruction :: program)) : Owned team own fixed program where
  reads := fun other listed => owned.reads other (List.mem_cons_of_mem _ listed)
  writes := fun other listed => owned.writes other (List.mem_cons_of_mem _ listed)

section Parts

variable {team : List Thread} {rest : Program Thread Register Cell Value}

theorem Owned.nil :
    Owned team own fixed ([] : Program Thread Register Cell Value) where
  reads := fun _ listed => absurd listed List.not_mem_nil
  writes := fun _ listed => absurd listed List.not_mem_nil

theorem Owned.append (first : Owned team own fixed program) (second : Owned team own fixed rest) :
    Owned team own fixed (program ++ rest) where
  reads := fun instruction listed =>
    (List.mem_append.mp listed).elim (first.reads instruction) (second.reads instruction)
  writes := fun instruction listed =>
    (List.mem_append.mp listed).elim (first.writes instruction) (second.writes instruction)

theorem Owned.cons {instruction : Instruction Thread Register Cell Value}
    (reads : ∀ thread ∈ team, ∀ cell, instruction.reads thread cell →
      own thread cell ∨ fixed thread cell)
    (writes : ∀ thread ∈ team, ∀ cell, instruction.writes thread cell → own thread cell)
    (later : Owned team own fixed rest) : Owned team own fixed (instruction :: rest) where
  reads := fun other listed => (List.mem_cons.mp listed).elim
    (fun same => same ▸ reads) (later.reads other)
  writes := fun other listed => (List.mem_cons.mp listed).elim
    (fun same => same ▸ writes) (later.writes other)

theorem Owned.barrier (stops : Thread → Thread → Prop) (later : Owned team own fixed rest) :
    Owned team own fixed (.barrier stops :: rest) :=
  .cons (fun _ _ _ reads => reads.elim) (fun _ _ _ writes => writes.elim) later

theorem Owned.assign (register : Register) (value : (Register → Value) → Value)
    (later : Owned team own fixed rest) :
    Owned team own fixed (.assign register value :: rest) :=
  .cons (fun _ _ _ reads => reads.elim) (fun _ _ _ writes => writes.elim) later

theorem Owned.load (register : Register) {place : Thread → Cell}
    (visible : ∀ thread ∈ team, own thread (place thread) ∨ fixed thread (place thread))
    (later : Owned team own fixed rest) :
    Owned team own fixed (.load register place :: rest) :=
  .cons (fun thread listed _ reads => reads ▸ visible thread listed)
    (fun _ _ _ writes => writes.elim) later

theorem Owned.store {place : Thread → Cell} (value : (Register → Value) → Value)
    (mine : ∀ thread ∈ team, own thread (place thread)) (later : Owned team own fixed rest) :
    Owned team own fixed (.store place value :: rest) :=
  .cons (fun _ _ _ reads => reads.elim)
    (fun thread listed _ writes => writes ▸ mine thread listed) later

/-- Owners do not write one cell twice with one instruction. -/
theorem Owned.single {threads : List Thread} (owned : Owned threads own fixed program)
    (exclusive : Exclusive threads own fixed) : WritesOnce threads program := by
  intro instruction listed thread inside other near different cell theirs mine
  exact different (exclusive.single thread inside other near cell
    (owned.writes instruction listed thread inside cell mine)
    (owned.writes instruction listed other near cell theirs))

end Parts

section Apart

variable {joined : Thread → Thread → Prop} {threads : List Thread} {history : History Thread Cell}

/-- The accesses of owners are added to a history. -/
def History.owned (history : History Thread Cell) (own fixed : Thread → Cell → Prop) :
    History Thread Cell where
  read := fun thread other cell =>
    history.read thread other cell ∨ own thread cell ∨ fixed thread cell
  written := fun thread other cell => history.written thread other cell ∨ own thread cell

/-- Owners are kept apart where the cells that they access have not been missed before. -/
theorem separated_of_owned (joined : Thread → Thread → Prop)
    (owned : Owned threads own fixed program)
    (exclusive : Exclusive threads own fixed)
    (read : ∀ thread ∈ threads, ∀ other ∈ threads, thread ≠ other → ∀ cell,
      history.read thread other cell → ¬own other cell)
    (written : ∀ thread ∈ threads, ∀ other ∈ threads, thread ≠ other → ∀ cell,
      history.written thread other cell → ¬own other cell ∧ ¬fixed other cell) :
    Separated joined threads history program (history.owned own fixed) := by
  apply separated_of_stable ⟨fun _ _ _ _ _ _ => Or.inl, fun _ _ _ _ _ _ => Or.inl⟩
  · intro instruction there thread inside other near different cell
    have apart (mine : own thread cell) : ¬own other cell := fun theirs =>
      different (exclusive.single thread inside other near cell mine theirs)
    refine ⟨fun writes again => ?_, fun _ => ⟨fun writes => ?_, fun access => ?_⟩⟩
    · exact apart (owned.writes instruction there thread inside cell again)
        (owned.writes instruction there other near cell writes)
    · have theirs := owned.writes instruction there other near cell writes
      rintro (missed | mine | kept)
      · exact read thread inside other near different cell missed theirs
      · exact apart mine theirs
      · exact exclusive.kept other near thread inside cell theirs kept
    · have theirs : own other cell ∨ fixed other cell := access.elim
        (owned.reads instruction there other near cell)
        fun writes => .inl (owned.writes instruction there other near cell writes)
      rintro (missed | mine)
      · obtain ⟨notOwn, notFixed⟩ := written thread inside other near different cell missed
        exact theirs.elim notOwn notFixed
      · exact theirs.elim (apart mine) (exclusive.kept thread inside other near cell mine)
  · intro instruction there
    refine ⟨fun thread inside other near different cell missed => ?_,
      fun thread inside other near different cell missed => ?_⟩
    · rcases missed with ⟨before, -⟩ | reads
      · exact before
      · exact .inr (owned.reads instruction there thread inside cell reads)
    · rcases missed with ⟨before, -⟩ | writes
      · exact before
      · exact .inr (owned.writes instruction there thread inside cell writes)

end Apart

section Levels

variable {joined : Thread → Thread → Prop} {team : List Thread}
  {own : Nat → Thread → Cell → Prop} {fixed : Thread → Cell → Prop} {group : Thread → Nat}
  {place : Cell → Nat} {narrow : Nat → Prop}

/-- Each level has owners of its own, and narrow levels keep the cells of a group in the group. -/
structure Levels (team : List Thread) (own : Nat → Thread → Cell → Prop)
    (fixed : Thread → Cell → Prop) (group : Thread → Nat) (place : Cell → Nat)
    (narrow : Nat → Prop) : Prop where
  exclusive : ∀ s, Exclusive team (own s) fixed
  near : ∀ s, narrow s → ∀ thread ∈ team, ∀ cell, own s thread cell → place cell = group thread

/-- A thread of another group may have worked on this cell at a narrow level. -/
def Elsewhere (own : Nat → Thread → Cell → Prop) (group : Thread → Nat) (narrow : Nat → Prop)
    (thread other : Thread) (cell : Cell) : Prop :=
  (∃ s, narrow s ∧ own s thread cell) ∧ group thread ≠ group other

/-- After a level its own cells and those of other groups have been missed. -/
def missed (own : Nat → Thread → Cell → Prop) (fixed : Thread → Cell → Prop)
    (group : Thread → Nat) (narrow : Nat → Prop) (s : Nat) : History Thread Cell where
  read := fun thread other cell =>
    own s thread cell ∨ fixed thread cell ∨ Elsewhere own group narrow thread other cell
  written := fun thread other cell =>
    own s thread cell ∨ Elsewhere own group narrow thread other cell

variable {s next : Nat} {stop : Instruction Thread Register Cell Value} {thread other : Thread}
  {cell : Cell}

theorem Levels.elsewhere_not_own (levels : Levels team own fixed group place narrow)
    (inside : thread ∈ team) (near : other ∈ team) (narrow_ : narrow s)
    (elsewhere : Elsewhere own group narrow thread other cell) : ¬own s other cell := by
  obtain ⟨⟨level, before, mine⟩, apart⟩ := elsewhere
  intro theirs
  exact apart ((levels.near level before thread inside cell mine).symm.trans
    (levels.near s narrow_ other near cell theirs))

theorem Levels.elsewhere_not_fixed (levels : Levels team own fixed group place narrow)
    (inside : thread ∈ team) (near : other ∈ team)
    (elsewhere : Elsewhere own group narrow thread other cell) : ¬fixed other cell := by
  obtain ⟨⟨level, -, mine⟩, -⟩ := elsewhere
  exact (levels.exclusive level).kept thread inside other near cell mine

/-- What has been missed after a narrow level belongs to no other thread at this level. -/
theorem Levels.missed_not_own (levels : Levels team own fixed group place narrow)
    (inside : thread ∈ team) (near : other ∈ team) (different : thread ≠ other)
    (narrow_ : narrow s) (read : (missed own fixed group narrow s).read thread other cell) :
    ¬own s other cell := by
  rcases read with mine | still | elsewhere
  · exact fun theirs => different
      ((levels.exclusive s).single thread inside other near cell mine theirs)
  · exact fun theirs => (levels.exclusive s).kept other near thread inside cell theirs still
  · exact levels.elsewhere_not_own inside near narrow_ elsewhere

/-- A barrier before a level waits for the whole team, or for the group between narrow levels. -/
def Covers (joined : Thread → Thread → Prop) (team : List Thread) (group : Thread → Nat)
    (narrow : Nat → Prop) (s next : Nat) (stop : Instruction Thread Register Cell Value) : Prop :=
  (∀ thread ∈ team, ∀ other ∈ team, stop.waits joined other thread) ∨
    (narrow s ∧ narrow next ∧
      ∀ thread ∈ team, ∀ other ∈ team, group thread = group other → stop.waits joined other thread)

/-- A barrier waits for all that could still change the cells of the next level. -/
theorem Levels.quiet (levels : Levels team own fixed group place narrow)
    (covers : Covers joined team group narrow s next stop)
    (noRead : ∀ thread cell, ¬stop.reads thread cell)
    (noWrite : ∀ thread cell, ¬stop.writes thread cell) :
    ∀ thread ∈ team, ∀ other ∈ team, thread ≠ other → ∀ cell,
      (((missed own fixed group narrow s).after joined stop).read thread other cell →
        ¬own next other cell ∧ (missed own fixed group narrow next).read thread other cell) ∧
      (((missed own fixed group narrow s).after joined stop).written thread other cell →
        (¬own next other cell ∧ ¬fixed other cell) ∧
          (missed own fixed group narrow next).written thread other cell) := by
  intro thread inside other near different cell
  rcases covers with all | ⟨before, after, grouped⟩
  · have stopped := all thread inside other near
    exact ⟨fun read => (read.elim (fun missed => missed.2 stopped) (noRead thread cell)).elim,
      fun written => (written.elim (fun missed => missed.2 stopped) (noWrite thread cell)).elim⟩
  · have away (mine : own s thread cell ∨ Elsewhere own group narrow thread other cell)
        (open_ : ¬stop.waits joined other thread) :
        Elsewhere own group narrow thread other cell := by
      rcases mine with mine | elsewhere
      · exact ⟨⟨s, before, mine⟩, fun same => open_ (grouped thread inside other near same)⟩
      · exact elsewhere
    have kept (elsewhere : Elsewhere own group narrow thread other cell) :
        ¬own next other cell := levels.elsewhere_not_own inside near after elsewhere
    constructor
    · rintro (⟨mine | still | elsewhere, open_⟩ | reads)
      · have there := away (.inl mine) open_
        exact ⟨kept there, .inr (.inr there)⟩
      · exact ⟨fun theirs => (levels.exclusive next).kept other near thread inside cell theirs still,
          .inr (.inl still)⟩
      · exact ⟨kept elsewhere, .inr (.inr elsewhere)⟩
      · exact (noRead thread cell reads).elim
    · rintro (⟨before_, open_⟩ | writes)
      · have there := away before_ open_
        exact ⟨⟨kept there, levels.elsewhere_not_fixed inside near there⟩, .inr there⟩
      · exact (noWrite thread cell writes).elim

/-- The first level may follow a barrier of the whole team. -/
theorem separated_first (joined : Thread → Thread → Prop) (group : Thread → Nat)
    (narrow : Nat → Prop) (exclusive : Exclusive team (own s) fixed)
    (owned : Owned team (own s) fixed program) :
    Separated joined team History.empty program (missed own fixed group narrow s) := by
  apply (@separated_of_owned _ _ _ _ _ _ _ _ History.empty joined owned exclusive
    (fun _ _ _ _ _ _ read => read.elim) fun _ _ _ _ _ _ written => written.elim).weaken (.refl _)
  refine ⟨fun _ _ _ _ _ _ read => ?_, fun _ _ _ _ _ _ written => ?_⟩
  · exact (read.resolve_left not_false).imp_right .inl
  · exact .inl (written.resolve_left not_false)

/-- Fixed cells may be read before a barrier. -/
theorem Levels.separated_fixed (levels : Levels team own fixed group place narrow)
    (joined : Thread → Thread → Prop) (owned : Owned team (fun _ _ => False) fixed program) :
    Separated joined team (missed own fixed group narrow s) program
      (missed own fixed group narrow s) := by
  have exclusive : Exclusive team (fun _ _ => False) fixed :=
    ⟨fun _ _ _ _ _ mine => mine.elim, fun _ _ _ _ _ mine => mine.elim⟩
  apply (separated_of_owned joined owned exclusive (fun _ _ _ _ _ _ _ => not_false) _).weaken
    (.refl _)
  · refine ⟨fun thread inside other near different cell read => ?_,
      fun thread inside other near different cell written => ?_⟩
    · rcases read with before | mine | still
      · exact before
      · exact mine.elim
      · exact .inr (.inl still)
    · exact written.resolve_right not_false
  · rintro thread inside other near - cell (mine | elsewhere)
    · exact ⟨not_false, (levels.exclusive s).kept thread inside other near cell mine⟩
    · exact ⟨not_false, levels.elsewhere_not_fixed inside near elsewhere⟩

/-- A level is kept apart from the level before it. -/
theorem Levels.separated (levels : Levels team own fixed group place narrow)
    (stops : Thread → Thread → Prop)
    (covers : Covers joined team group narrow s next
      (.barrier stops : Instruction Thread Register Cell Value))
    (owned : Owned team (own next) fixed program) :
    Separated joined team (missed own fixed group narrow s) (.barrier stops :: program)
      (missed own fixed group narrow next) := by
  have quiet := levels.quiet covers (fun _ _ reads => reads) fun _ _ writes => writes
  have level := separated_of_owned joined owned (levels.exclusive next)
    (fun thread inside other near different cell read =>
      ((quiet thread inside other near different cell).1 read).1)
    fun thread inside other near different cell written =>
      ((quiet thread inside other near different cell).2 written).1
  apply (Separated.barrier stops (missed own fixed group narrow s)).append (level.weaken (.refl _) _)
  refine ⟨fun thread inside other near different cell read => ?_,
    fun thread inside other near different cell written => ?_⟩
  · rcases read with before | mine | still
    · exact ((quiet thread inside other near different cell).1 before).2
    · exact .inl mine
    · exact .inr (.inl still)
  · rcases written with before | mine
    · exact ((quiet thread inside other near different cell).2 before).2
    · exact .inl mine

/-- A barrier of the whole team leaves nothing that has been missed. -/
theorem separated_barrier {stops : Thread → Thread → Prop}
    (all : ∀ thread ∈ team, ∀ other ∈ team, stops other thread) (history : History Thread Cell) :
    Separated joined team history
      [(.barrier stops : Instruction Thread Register Cell Value)] History.empty := by
  apply (Separated.barrier stops history).weaken (.refl _)
  refine ⟨fun thread inside other near _ _ read => ?_,
    fun thread inside other near _ _ written => ?_⟩
  · exact read.elim (fun before => absurd (.inl (all thread inside other near)) before.2) id
  · exact written.elim (fun before => absurd (.inl (all thread inside other near)) before.2) id

/-- A part between two barriers of the whole team follows nothing that has been missed. -/
theorem separated_between {own fixed : Thread → Cell → Prop} {stops : Thread → Thread → Prop}
    (all : ∀ thread ∈ team, ∀ other ∈ team, stops other thread) (owned : Owned team own fixed program)
    (exclusive : Exclusive team own fixed) :
    Separated joined team History.empty
      (program ++ [(.barrier stops : Instruction Thread Register Cell Value)]) History.empty :=
  (@separated_of_owned _ _ _ _ _ _ _ _ History.empty joined owned exclusive
    (fun _ _ _ _ _ _ read => read.elim) fun _ _ _ _ _ _ written => written.elim).append
      (separated_barrier all _)

end Levels

variable [DecidableEq Thread] [DecidableEq Register] [DecidableEq Cell] {team : List Thread}

/-- Cells without an owner in the team stay as they are. -/
theorem lockstep_frame (owned : Owned team own fixed program) {cell : Cell}
    (free : ∀ thread ∈ team, ¬own thread cell) (machine : Machine Thread Register Cell Value) :
    (lockstep team program machine).memory cell = machine.memory cell := by
  induction program generalizing machine with
  | nil => rfl
  | cons instruction rest inductionHypothesis =>
      rw [lockstep_cons, inductionHypothesis owned.tail, sweep_memory_other]
      intro thread listed writes
      exact free thread listed
        (owned.writes instruction List.mem_cons_self thread listed cell writes)

/-- Two machines look the same to one owner. -/
structure Alike (own fixed : Thread → Cell → Prop) (thread : Thread)
    (first second : Machine Thread Register Cell Value) : Prop where
  registers : first.registers thread = second.registers thread
  memory : ∀ cell, own thread cell ∨ fixed thread cell → first.memory cell = second.memory cell

/-- A thread among owners does what it would do by itself. -/
theorem lockstep_alone (once : team.Nodup) (owned : Owned team own fixed program)
    (exclusive : Exclusive team own fixed) {thread : Thread} (listed : thread ∈ team)
    {machine shadow : Machine Thread Register Cell Value}
    (alike : Alike own fixed thread machine shadow) :
    Alike own fixed thread (lockstep team program machine) (alone program thread shadow) := by
  induction program generalizing machine shadow with
  | nil => exact alike
  | cons instruction rest inductionHypothesis =>
      apply inductionHypothesis owned.tail
      have reads := owned.reads instruction List.mem_cons_self
      have writes := owned.writes instruction List.mem_cons_self
      refine ⟨?_, ?_⟩
      · rw [sweep_registers once listed]
        apply act_registers alike.registers
        intro cell read
        exact alike.memory cell (reads thread listed cell read)
      · intro cell visible
        by_cases written : instruction.writes thread cell
        · rw [sweep_memory once listed written]
          · exact act_memory alike.registers written
          · intro other there again
            exact exclusive.single other there thread listed cell (writes other there cell again)
              (writes thread listed cell written)
        · rw [sweep_memory_other, act_memory_other written, alike.memory cell visible]
          intro other there again
          have theirs := writes other there cell again
          rcases visible with mine | kept
          · obtain rfl := exclusive.single other there thread listed cell theirs mine
            exact written again
          · exact exclusive.kept other there thread listed cell theirs kept

/-- An owner leaves in its cells what it computes by itself. -/
theorem lockstep_owner (once : team.Nodup) (owned : Owned team own fixed program)
    (exclusive : Exclusive team own fixed) {thread : Thread} (listed : thread ∈ team) {cell : Cell}
    (mine : own thread cell) (machine : Machine Thread Register Cell Value) :
    (lockstep team program machine).memory cell = (alone program thread machine).memory cell :=
  (lockstep_alone once owned exclusive listed ⟨rfl, fun _ _ => rfl⟩).memory cell (.inl mine)

end Ownership

end ThreadBlock
