/-
This file runs one program in each thread of a block, with barriers between the threads.
-/

import Fideslib.Library.Run

namespace ThreadBlock

open StateMachine (Run)

/-- A thread moves words between its registers and the memory, and it waits at barriers. -/
inductive Instruction (Thread Register Cell Value : Type)
  | barrier (waits : Thread → Thread → Prop)
  | load (register : Register) (cell : Thread → Cell)
  | assign (register : Register) (value : (Register → Value) → Value)
  | store (cell : Thread → Cell) (value : (Register → Value) → Value)

/-- All threads carry out the same instructions. -/
abbrev Program (Thread Register Cell Value : Type) :=
  List (Instruction Thread Register Cell Value)

/-- The threads share one memory, and each of them has registers of its own. -/
structure Machine (Thread Register Cell Value : Type) where
  registers : Thread → Register → Value
  memory : Cell → Value

variable {Thread Register Cell Value : Type}

def Machine.setRegister [DecidableEq Thread] [DecidableEq Register]
    (machine : Machine Thread Register Cell Value) (thread : Thread) (register : Register)
    (value : Value) : Machine Thread Register Cell Value where
  registers :=
    Function.update machine.registers thread
      (Function.update (machine.registers thread) register value)
  memory := machine.memory

def Machine.setCell [DecidableEq Cell] (machine : Machine Thread Register Cell Value) (cell : Cell)
    (value : Value) : Machine Thread Register Cell Value where
  registers := machine.registers
  memory := Function.update machine.memory cell value

section Updates

variable (machine : Machine Thread Register Cell Value) (value : Value)

section Registers

variable [DecidableEq Thread] [DecidableEq Register] (thread : Thread) (register : Register)

@[simp] theorem Machine.setRegister_memory :
    (machine.setRegister thread register value).memory = machine.memory :=
  rfl

@[simp] theorem Machine.setRegister_self :
    (machine.setRegister thread register value).registers thread register = value := by
  simp [Machine.setRegister]

theorem Machine.setRegister_other {other : Register} (different : other ≠ register) :
    (machine.setRegister thread register value).registers thread other =
      machine.registers thread other := by
  simp [Machine.setRegister, Function.update_of_ne different]

end Registers

section Cells

variable [DecidableEq Cell] (cell : Cell)

end Cells

end Updates

namespace Instruction

/-- The second thread has to come here before the first one goes on. -/
def waits (joined : Thread → Thread → Prop) :
    Instruction Thread Register Cell Value → Thread → Thread → Prop
  | barrier stops, thread, other => stops thread other ∨ joined thread other
  | _, thread, other => joined thread other

def reads : Instruction Thread Register Cell Value → Thread → Cell → Prop
  | load _ place, thread, cell => cell = place thread
  | _, _, _ => False

def writes : Instruction Thread Register Cell Value → Thread → Cell → Prop
  | store place _, thread, cell => cell = place thread
  | _, _, _ => False

variable [DecidableEq Thread] [DecidableEq Register] [DecidableEq Cell]

def act : Instruction Thread Register Cell Value → Thread → Machine Thread Register Cell Value →
    Machine Thread Register Cell Value
  | barrier _, _, machine => machine
  | load register place, thread, machine =>
      machine.setRegister thread register (machine.memory (place thread))
  | assign register value, thread, machine =>
      machine.setRegister thread register (value (machine.registers thread))
  | store place value, thread, machine =>
      machine.setCell (place thread) (value (machine.registers thread))

end Instruction

/-- Each thread has carried out its own part of the program. -/
structure Config (Thread Register Cell Value : Type) where
  machine : Machine Thread Register Cell Value
  progress : Thread → Nat

section Semantics

variable [DecidableEq Thread] [DecidableEq Register] [DecidableEq Cell]

/-- A thread carries out its next instruction when all that it waits for are there. -/
structure Step (joined : Thread → Thread → Prop) (threads : List Thread)
    (program : Program Thread Register Cell Value) (thread : Thread)
    (before after : Config Thread Register Cell Value) : Prop where
  inside : thread ∈ threads
  moves : ∃ instruction, program[before.progress thread]? = some instruction ∧
    (∀ other ∈ threads, instruction.waits joined thread other →
      before.progress thread ≤ before.progress other) ∧
    after.machine = instruction.act thread before.machine
  advances : after.progress =
    Function.update before.progress thread (before.progress thread + 1)

def Config.start (machine : Machine Thread Register Cell Value) :
    Config Thread Register Cell Value :=
  ⟨machine, fun _ => 0⟩

def Config.Finished (threads : List Thread) (program : Program Thread Register Cell Value)
    (config : Config Thread Register Cell Value) : Prop :=
  ∀ thread ∈ threads, config.progress thread = program.length

/-- The threads of a block start together and interleave in any order. -/
def Reaches (joined : Thread → Thread → Prop) (threads : List Thread)
    (program : Program Thread Register Cell Value)
    (machine : Machine Thread Register Cell Value)
    (config : Config Thread Register Cell Value) : Prop :=
  Run (Step joined threads program) (fun _ _ => True) (Config.start machine) config

/-- All threads of a team carry out one instruction one after the other. -/
def sweep (team : List Thread) (instruction : Instruction Thread Register Cell Value)
    (machine : Machine Thread Register Cell Value) : Machine Thread Register Cell Value :=
  team.foldl (fun machine thread => instruction.act thread machine) machine

/-- The team carries out the instructions of a program side by side. -/
def lockstep (team : List Thread) (program : Program Thread Register Cell Value)
    (machine : Machine Thread Register Cell Value) : Machine Thread Register Cell Value :=
  program.foldl (fun machine instruction => sweep team instruction machine) machine

/-- One thread carries out a program by itself. -/
def alone (program : Program Thread Register Cell Value) (thread : Thread)
    (machine : Machine Thread Register Cell Value) : Machine Thread Register Cell Value :=
  program.foldl (fun machine instruction => instruction.act thread machine) machine

theorem lockstep_append (team : List Thread) (first second : Program Thread Register Cell Value)
    (machine : Machine Thread Register Cell Value) :
    lockstep team (first ++ second) machine = lockstep team second (lockstep team first machine) :=
  List.foldl_append

theorem alone_append (first second : Program Thread Register Cell Value) (thread : Thread)
    (machine : Machine Thread Register Cell Value) :
    alone (first ++ second) thread machine = alone second thread (alone first thread machine) :=
  List.foldl_append

theorem lockstep_cons (team : List Thread) (instruction : Instruction Thread Register Cell Value)
    (rest : Program Thread Register Cell Value) (machine : Machine Thread Register Cell Value) :
    lockstep team (instruction :: rest) machine =
      lockstep team rest (sweep team instruction machine) :=
  rfl

end Semantics

section Sweep

variable [DecidableEq Thread] [DecidableEq Register] [DecidableEq Cell]

section Act

variable {instruction : Instruction Thread Register Cell Value} {thread other : Thread}
  {machine : Machine Thread Register Cell Value}

/-- An instruction of another thread leaves the registers of a thread. -/
theorem act_registers_other (different : other ≠ thread) :
    (instruction.act thread machine).registers other = machine.registers other := by
  cases instruction with
  | barrier => rfl
  | load register place => exact Function.update_of_ne different _ _
  | assign register value => exact Function.update_of_ne different _ _
  | store place value => rfl

theorem act_memory_other {cell : Cell} (quiet : ¬instruction.writes thread cell) :
    (instruction.act thread machine).memory cell = machine.memory cell := by
  cases instruction with
  | barrier => rfl
  | load register place => rfl
  | assign register value => rfl
  | store place value => exact Function.update_of_ne quiet _ _

/-- The new registers of a thread follow from its old ones and from the words that it reads. -/
theorem act_registers {machine shadow : Machine Thread Register Cell Value}
    (registers : machine.registers thread = shadow.registers thread)
    (read : ∀ cell, instruction.reads thread cell → machine.memory cell = shadow.memory cell) :
    (instruction.act thread machine).registers thread =
      (instruction.act thread shadow).registers thread := by
  cases instruction with
  | barrier => exact registers
  | load register place =>
      simp only [Instruction.act, Machine.setRegister, Function.update_self]
      rw [registers, read (place thread) rfl]
  | assign register value =>
      simp only [Instruction.act, Machine.setRegister, Function.update_self]
      rw [registers]
  | store place value => exact registers

theorem act_memory {machine shadow : Machine Thread Register Cell Value} {cell : Cell}
    (registers : machine.registers thread = shadow.registers thread)
    (written : instruction.writes thread cell) :
    (instruction.act thread machine).memory cell = (instruction.act thread shadow).memory cell := by
  cases instruction with
  | barrier => exact written.elim
  | load register place => exact written.elim
  | assign register value => exact written.elim
  | store place value =>
      obtain rfl : cell = place thread := written
      simp only [Instruction.act, Machine.setCell, Function.update_self]
      rw [registers]

end Act

variable {instruction : Instruction Thread Register Cell Value} {team : List Thread}
  {thread : Thread}

theorem sweep_registers_other (absent : thread ∉ team)
    (machine : Machine Thread Register Cell Value) :
    (sweep team instruction machine).registers thread = machine.registers thread := by
  induction team generalizing machine with
  | nil => rfl
  | cons first rest inductionHypothesis =>
      obtain ⟨different, later⟩ := List.ne_and_not_mem_of_not_mem_cons absent
      change (sweep rest instruction (instruction.act first machine)).registers thread = _
      rw [inductionHypothesis later, act_registers_other different]

theorem sweep_memory_other {cell : Cell} (quiet : ∀ thread ∈ team, ¬instruction.writes thread cell)
    (machine : Machine Thread Register Cell Value) :
    (sweep team instruction machine).memory cell = machine.memory cell := by
  induction team generalizing machine with
  | nil => rfl
  | cons first rest inductionHypothesis =>
      change (sweep rest instruction (instruction.act first machine)).memory cell = _
      rw [inductionHypothesis (fun thread listed => quiet thread (List.mem_cons_of_mem _ listed)),
        act_memory_other (quiet first List.mem_cons_self)]

/-- A barrier that all threads have reached leaves them as they are. -/
theorem sweep_barrier (team : List Thread) (stops : Thread → Thread → Prop)
    (machine : Machine Thread Register Cell Value) :
    sweep team (.barrier stops : Instruction Thread Register Cell Value) machine = machine := by
  induction team with
  | nil => rfl
  | cons first rest inductionHypothesis => exact inductionHypothesis

/-- A thread of the team gets the registers that it would get by itself. -/
theorem sweep_registers (once : team.Nodup) (listed : thread ∈ team)
    (machine : Machine Thread Register Cell Value) :
    (sweep team instruction machine).registers thread =
      (instruction.act thread machine).registers thread := by
  induction team generalizing machine with
  | nil => cases listed
  | cons first rest inductionHypothesis =>
      obtain ⟨absent, onceRest⟩ := List.nodup_cons.mp once
      change (sweep rest instruction (instruction.act first machine)).registers thread = _
      rcases List.mem_cons.mp listed with rfl | later
      · exact sweep_registers_other absent _
      · have different : thread ≠ first := fun same => absent (same ▸ later)
        rw [inductionHypothesis onceRest later]
        apply act_registers (act_registers_other different)
        intro cell read
        apply act_memory_other
        cases instruction with
        | load register place => exact not_false
        | barrier => exact read.elim
        | assign register value => exact read.elim
        | store place value => exact read.elim

/-- A cell that one thread of the team writes gets the word of this thread. -/
theorem sweep_memory {cell : Cell} (once : team.Nodup) (listed : thread ∈ team)
    (written : instruction.writes thread cell)
    (single : ∀ other ∈ team, instruction.writes other cell → other = thread)
    (machine : Machine Thread Register Cell Value) :
    (sweep team instruction machine).memory cell =
      (instruction.act thread machine).memory cell := by
  induction team generalizing machine with
  | nil => cases listed
  | cons first rest inductionHypothesis =>
      obtain ⟨absent, onceRest⟩ := List.nodup_cons.mp once
      change (sweep rest instruction (instruction.act first machine)).memory cell = _
      rcases List.mem_cons.mp listed with rfl | later
      · apply sweep_memory_other
        intro other there writes
        exact absent (single other (List.mem_cons_of_mem _ there) writes ▸ there)
      · have different : thread ≠ first := fun same => absent (same ▸ later)
        rw [inductionHypothesis onceRest later fun other there =>
          single other (List.mem_cons_of_mem _ there)]
        exact act_memory (act_registers_other different) written

end Sweep

section Schedules

variable [DecidableEq Thread] [DecidableEq Register] [DecidableEq Cell]
  {joined : Thread → Thread → Prop} {threads : List Thread}
  {program : Program Thread Register Cell Value}
  {start : Machine Thread Register Cell Value}

/-- The threads of a team are this far, and the others are where they were. -/
def moved (team : List Thread) (i : Nat) (progress : Thread → Nat) (thread : Thread) : Nat :=
  if thread ∈ team then i else progress thread

theorem moved_in {team : List Thread} {thread : Thread} (listed : thread ∈ team) (i : Nat)
    (progress : Thread → Nat) : moved team i progress thread = i :=
  if_pos listed

theorem moved_out {team : List Thread} {thread : Thread} (absent : thread ∉ team) (i : Nat)
    (progress : Thread → Nat) : moved team i progress thread = progress thread :=
  if_neg absent

/-- A team goes through one instruction when it waits for nobody else. -/
theorem reaches_sweep {team : List Thread} {i : Nat}
    {instruction : Instruction Thread Register Cell Value}
    (here : program[i]? = some instruction) {config : Config Thread Register Cell Value}
    (reaches : Reaches joined threads program start config) (once : team.Nodup)
    (inside : ∀ thread ∈ team, thread ∈ threads ∧ config.progress thread = i)
    (ready : ∀ thread ∈ team, ∀ other ∈ threads, instruction.waits joined thread other →
      i ≤ config.progress other) :
    Reaches joined threads program start
      ⟨sweep team instruction config.machine, moved team (i + 1) config.progress⟩ := by
  induction team generalizing config with
  | nil =>
      have same : moved [] (i + 1) config.progress = config.progress := by
        funext thread
        exact if_neg List.not_mem_nil
      rw [same]
      exact reaches
  | cons first rest inductionHypothesis =>
      obtain ⟨absent, onceRest⟩ := List.nodup_cons.mp once
      obtain ⟨near, place⟩ := inside first List.mem_cons_self
      have step : Step joined threads program first config
          ⟨instruction.act first config.machine,
            Function.update config.progress first (config.progress first + 1)⟩ :=
        ⟨near, ⟨instruction, by rw [place]; exact here, by
          rw [place]
          exact ready first List.mem_cons_self, rfl⟩, rfl⟩
      have later := inductionHypothesis (reaches.next trivial step) onceRest
        (fun thread listed => by
          have different : thread ≠ first := fun same => absent (same ▸ listed)
          obtain ⟨bound, before⟩ := inside thread (List.mem_cons_of_mem _ listed)
          exact ⟨bound, (Function.update_of_ne different _ _).trans before⟩)
        (fun thread listed other close waits => by
          have before := ready thread (List.mem_cons_of_mem _ listed) other close waits
          rcases eq_or_ne other first with rfl | different
          · change i ≤ Function.update config.progress other (config.progress other + 1) other
            rw [Function.update_self]
            omega
          · exact before.trans (Function.update_of_ne different _ _).ge)
      have same : moved rest (i + 1)
          (Function.update config.progress first (config.progress first + 1)) =
            moved (first :: rest) (i + 1) config.progress := by
        funext thread
        simp only [moved, List.mem_cons]
        by_cases last : thread ∈ rest
        · rw [if_pos last, if_pos (.inr last)]
        · rcases eq_or_ne thread first with rfl | different
          · rw [if_neg last, if_pos (.inl rfl), Function.update_self, place]
          · rw [if_neg last, if_neg (not_or.mpr ⟨different, last⟩), Function.update_of_ne different]
      rw [same] at later
      exact later

/-- A team goes through a part of its program side by side. -/
theorem reaches_lockstep {team : List Thread} {done body rest : Program Thread Register Cell Value}
    (whole : program = done ++ (body ++ rest)) {config : Config Thread Register Cell Value}
    (reaches : Reaches joined threads program start config) (once : team.Nodup)
    (inside : ∀ thread ∈ team, thread ∈ threads ∧ config.progress thread = done.length)
    (ready : ∀ instruction ∈ body, ∀ thread ∈ team, ∀ other ∈ threads,
      instruction.waits joined thread other →
        other ∈ team ∨ done.length + body.length ≤ config.progress other) :
    Reaches joined threads program start ⟨lockstep team body config.machine,
      moved team (done.length + body.length) config.progress⟩ := by
  induction body generalizing done config with
  | nil =>
      have same : moved team (done.length + 0) config.progress = config.progress := by
        funext thread
        by_cases listed : thread ∈ team
        · rw [moved_in listed, (inside thread listed).2, Nat.add_zero]
        · rw [moved_out listed]
      rw [List.length_nil, same]
      exact reaches
  | cons instruction body inductionHypothesis =>
      have here : program[done.length]? = some instruction := by
        rw [whole, List.getElem?_append_right le_rfl, Nat.sub_self]
        rfl
      have next := reaches_sweep here reaches once inside fun thread listed other close waits => by
        rcases ready instruction List.mem_cons_self thread listed other close waits with mate | far
        · exact (inside other mate).2.ge
        · omega
      have again : program = (done ++ [instruction]) ++ (body ++ rest) := by
        rw [whole, List.append_assoc]
        rfl
      have length : (done ++ [instruction]).length = done.length + 1 := List.length_append
      have later := inductionHypothesis again next
        (fun thread listed => ⟨(inside thread listed).1, (moved_in listed _ _).trans length.symm⟩)
        (fun other there thread listed third close waits => by
          by_cases mate : third ∈ team
          · exact .inl mate
          · right
            have far := (ready other (List.mem_cons_of_mem _ there) thread listed third close
              waits).resolve_left mate
            rw [List.length_cons] at far
            rw [length]
            change _ ≤ moved team (done.length + 1) config.progress third
            rw [moved_out mate]
            omega)
      have same : moved team ((done ++ [instruction]).length + body.length)
          (moved team (done.length + 1) config.progress) =
            moved team (done.length + (instruction :: body).length) config.progress := by
        funext thread
        by_cases listed : thread ∈ team
        · rw [moved_in listed, moved_in listed, length, List.length_cons]
          omega
        · rw [moved_out listed, moved_out listed, moved_out listed]
      rw [same] at later
      exact later

/-- All threads can go through the program side by side. -/
theorem reaches_finished (once : threads.Nodup) (machine : Machine Thread Register Cell Value) :
    ∃ config : Config Thread Register Cell Value, Reaches joined threads program machine config ∧
      config.Finished threads program ∧
        config.machine = lockstep threads program machine := by
  have whole : program = [] ++ (program ++ []) := by rw [List.append_nil, List.nil_append]
  have reaches := reaches_lockstep whole (Run.start : Reaches joined threads program machine _)
    once (fun _ listed => ⟨listed, rfl⟩)
    (fun _ _ _ _ other close _ => .inl close)
  refine ⟨_, reaches, fun thread inside => ?_, rfl⟩
  exact (moved_in inside _ _).trans (Nat.zero_add _)

/-- Between two parts a team may go ahead of the threads that it does not wait for. -/
theorem reaches_ahead {first body last : Program Thread Register Cell Value} {ahead : Thread → Prop}
    [DecidablePred ahead] (once : threads.Nodup) (machine : Machine Thread Register Cell Value)
    (whole : program = first ++ (body ++ last))
    (ready : ∀ instruction ∈ body, ∀ thread ∈ threads, ∀ other ∈ threads,
      instruction.waits joined thread other → (ahead other ↔ ahead thread)) :
    ∃ config : Config Thread Register Cell Value, Reaches joined threads program machine config ∧
      config.Finished threads program ∧
        config.machine = lockstep threads last
          (lockstep (threads.filter fun thread => ¬ahead thread) body
            (lockstep (threads.filter ahead) body
              (lockstep threads first machine))) := by
  have begun := @reaches_lockstep _ _ _ _ _ _ _ joined threads program machine threads []
    first (body ++ last) whole _ .start once
    (fun _ listed => ⟨listed, rfl⟩)
    (fun _ _ _ _ other near _ => .inl near)
  have early := reaches_lockstep whole begun
    (once.filter fun thread => decide (ahead thread))
    (fun thread listed => by
      obtain ⟨here, -⟩ := List.mem_filter.mp listed
      exact ⟨here, (moved_in here _ _).trans (Nat.zero_add _)⟩)
    (fun instruction there thread listed other near waits => by
      obtain ⟨here, goes⟩ := List.mem_filter.mp listed
      exact .inl (List.mem_filter.mpr ⟨near, decide_eq_true
        ((ready instruction there thread here other near waits).mpr
          (of_decide_eq_true goes))⟩))
  have late := reaches_lockstep whole early
    (once.filter fun thread => decide ¬ahead thread)
    (fun thread listed => by
      obtain ⟨here, stays⟩ := List.mem_filter.mp listed
      refine ⟨here, (moved_out (fun goes => ?_) _ _).trans
        ((moved_in here _ _).trans (Nat.zero_add _))⟩
      exact (of_decide_eq_true stays : ¬ahead thread)
        (of_decide_eq_true (List.mem_filter.mp goes).2))
    (fun instruction there thread listed other near waits => by
      obtain ⟨here, stays⟩ := List.mem_filter.mp listed
      exact .inl (List.mem_filter.mpr ⟨near, decide_eq_true fun goes =>
        (of_decide_eq_true stays : ¬ahead thread)
          ((ready instruction there thread here other near waits).mp goes)⟩))
  have again : program = (first ++ body) ++ (last ++ []) := by
    rw [whole, List.append_nil, List.append_assoc]
  have ended := reaches_lockstep again late once
    (fun thread listed => by
      refine ⟨listed, ?_⟩
      rw [List.length_append]
      by_cases goes : ahead thread
      · refine (moved_out (fun stays => ?_) _ _).trans
          (moved_in (List.mem_filter.mpr ⟨listed, decide_eq_true goes⟩) _ _)
        exact (of_decide_eq_true (List.mem_filter.mp stays).2 : ¬ahead thread) goes
      · exact moved_in (List.mem_filter.mpr ⟨listed, decide_eq_true goes⟩) _ _)
    (fun _ _ _ _ other near _ => .inl near)
  refine ⟨_, ended, fun thread inside => ?_, rfl⟩
  refine (moved_in inside _ _).trans ?_
  rw [whole, ← List.append_assoc, ← List.length_append]

/-- No thread goes past the end of the program. -/
theorem Reaches.bounded {config : Config Thread Register Cell Value}
    (reaches : Reaches joined threads program start config) :
    ∀ thread, config.progress thread ≤ program.length := by
  refine reaches.invariant (fun config => ∀ thread, config.progress thread ≤ program.length)
    (fun _ => Nat.zero_le _) ?_
  intro thread before after _ moves bounded other
  obtain ⟨instruction, here, -⟩ := moves.moves
  have short := (List.getElem?_eq_some_iff.mp here).1
  rw [moves.advances]
  rcases eq_or_ne other thread with rfl | different
  · rw [Function.update_self]
    exact short
  · rw [Function.update_of_ne different]
    exact bounded other

/-- Some thread can go on until all of them have finished. -/
theorem exists_step {config : Config Thread Register Cell Value}
    (reaches : Reaches joined threads program start config)
    (unfinished : ¬config.Finished threads program) :
    ∃ thread after, Step joined threads program thread config after := by
  have bounded := reaches.bounded
  obtain ⟨late, near, open_⟩ : ∃ thread ∈ threads, config.progress thread < program.length := by
    by_contra none
    apply unfinished
    intro thread inside
    by_contra short
    have bound := bounded thread
    exact none ⟨thread, inside, by omega⟩
  obtain ⟨thread, inside, least⟩ := Finset.exists_min_image threads.toFinset config.progress
    ⟨late, List.mem_toFinset.mpr near⟩
  have first := least late (List.mem_toFinset.mpr near)
  have short : config.progress thread < program.length := by omega
  exact ⟨thread, ⟨program[config.progress thread].act thread config.machine,
      Function.update config.progress thread (config.progress thread + 1)⟩,
    List.mem_toFinset.mp inside, ⟨program[config.progress thread],
      List.getElem?_eq_getElem short, fun other close _ =>
        least other (List.mem_toFinset.mpr close), rfl⟩, rfl⟩

/-- These steps are left in a block. -/
def left (threads : List Thread) (program : Program Thread Register Cell Value)
    (config : Config Thread Register Cell Value) : Nat :=
  ∑ thread ∈ threads.toFinset, (program.length - config.progress thread)

/-- Each step leaves one step less. -/
theorem left_step {before after : Config Thread Register Cell Value} {thread : Thread}
    (moves : Step joined threads program thread before after) :
    left threads program before = left threads program after + 1 := by
  have there := List.mem_toFinset.mpr moves.inside
  obtain ⟨instruction, here, -⟩ := moves.moves
  have short := (List.getElem?_eq_some_iff.mp here).1
  rw [left, left, ← Finset.add_sum_erase _ _ there, ← Finset.add_sum_erase _ _ there,
    moves.advances, Function.update_self]
  have others : ∑ other ∈ threads.toFinset.erase thread,
      (program.length - Function.update before.progress thread (before.progress thread + 1) other) =
        ∑ other ∈ threads.toFinset.erase thread, (program.length - before.progress other) := by
    apply Finset.sum_congr rfl
    intro other listed
    rw [Function.update_of_ne (Finset.ne_of_mem_erase listed)]
  rw [others]
  omega

/-- However a block has begun, it finishes, and it takes as many steps as are left. -/
theorem finishes {config : Config Thread Register Cell Value}
    (reaches : Reaches joined threads program start config) :
    ∃ last, Run (Step joined threads program) (fun _ _ => True) config last ∧
      last.Finished threads program := by
  induction steps : left threads program config generalizing config with
  | zero =>
      refine ⟨config, .start, ?_⟩
      by_contra unfinished
      obtain ⟨thread, after, moves⟩ := exists_step reaches unfinished
      have less := left_step moves
      omega
  | succ steps inductionHypothesis =>
      by_cases finished : config.Finished threads program
      · exact ⟨config, .start, finished⟩
      · obtain ⟨thread, after, moves⟩ := exists_step reaches finished
        have less := left_step moves
        obtain ⟨last, run, done⟩ := inductionHypothesis (reaches.next trivial moves) (by omega)
        refine ⟨last, ?_, done⟩
        clear done inductionHypothesis
        induction run with
        | start => exact .next .start trivial moves
        | next past meets again earlier => exact .next earlier meets again

end Schedules

end ThreadBlock
