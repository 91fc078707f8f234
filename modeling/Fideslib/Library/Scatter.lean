/-
This file develops launches whose threads write cells of one memory.
-/

import Mathlib

namespace Scatter

variable {Thread Cell Value : Type} [DecidableEq Cell]

/-- The writes of a launch arrive one after the other. -/
def commit (writes : List (Cell × Value)) (memory : Cell → Value) : Cell → Value :=
  writes.foldl (fun memory write => Function.update memory write.1 write.2) memory

/-- The cell of a write determines its value. -/
def Determined (writes : List (Cell × Value)) (result : Cell → Value) : Prop :=
  ∀ write ∈ writes, write.2 = result write.1

variable {writes : List (Cell × Value)} {result : Cell → Value} {cell : Cell}

/-- A cell that no write meets keeps its value. -/
theorem commit_untouched (untouched : ∀ write ∈ writes, write.1 ≠ cell) (memory : Cell → Value) :
    commit writes memory cell = memory cell := by
  induction writes generalizing memory with
  | nil => rfl
  | cons write writes inductionHypothesis =>
      have different := untouched write List.mem_cons_self
      calc commit (write :: writes) memory cell
          = commit writes (Function.update memory write.1 write.2) cell := rfl
        _ = Function.update memory write.1 write.2 cell :=
          inductionHypothesis (fun other mem => untouched other (List.mem_cons_of_mem _ mem)) _
        _ = memory cell := Function.update_of_ne (Ne.symm different) _ _

/-- A cell that some write meets holds its value after each order of the writes. -/
theorem commit_determined (determined : Determined writes result)
    (touched : ∃ write ∈ writes, write.1 = cell) (memory : Cell → Value) :
    commit writes memory cell = result cell := by
  induction writes generalizing memory with
  | nil =>
      obtain ⟨write, mem, same⟩ := touched
      exact absurd mem List.not_mem_nil
  | cons write writes inductionHypothesis =>
      have rest : Determined writes result :=
        fun other mem => determined other (List.mem_cons_of_mem _ mem)
      change commit writes (Function.update memory write.1 write.2) cell = result cell
      by_cases later : ∃ other ∈ writes, other.1 = cell
      · exact inductionHypothesis rest later _
      · obtain ⟨first, mem, same⟩ := touched
        rcases List.mem_cons.mp mem with head | tail
        · rw [commit_untouched (fun other inside equal => later ⟨other, inside, equal⟩), ← same, head,
            Function.update_self]
          exact determined write List.mem_cons_self
        · exact absurd ⟨first, tail, same⟩ later

/-- A cell that some write meets holds what one of the writes to it brought. -/
theorem commit_touched (touched : ∃ write ∈ writes, write.1 = cell) (memory : Cell → Value) :
    ∃ write ∈ writes, write.1 = cell ∧ commit writes memory cell = write.2 := by
  induction writes generalizing memory with
  | nil =>
      obtain ⟨write, mem, same⟩ := touched
      exact absurd mem List.not_mem_nil
  | cons write writes inductionHypothesis =>
      change ∃ other ∈ write :: writes, other.1 = cell ∧
        commit writes (Function.update memory write.1 write.2) cell = other.2
      by_cases later : ∃ other ∈ writes, other.1 = cell
      · obtain ⟨other, mem, same, value⟩ := inductionHypothesis later
          (Function.update memory write.1 write.2)
        exact ⟨other, List.mem_cons_of_mem _ mem, same, value⟩
      · obtain ⟨first, mem, same⟩ := touched
        rcases List.mem_cons.mp mem with rfl | tail
        · refine ⟨first, List.mem_cons_self, same, ?_⟩
          rw [commit_untouched (fun other inside equal => later ⟨other, inside, equal⟩), ← same,
            Function.update_self]
        · exact absurd ⟨first, tail, same⟩ later

/-- Each write can be read back. -/
theorem commit_written (determined : Determined writes result) {write : Cell × Value}
    (mem : write ∈ writes) (memory : Cell → Value) : commit writes memory write.1 = write.2 := by
  rw [commit_determined determined ⟨write, mem, rfl⟩, determined write mem]

/-- Each write replaces the value of its cell by one that depends on it. -/
def modify (writes : List (Cell × (Value → Value))) (memory : Cell → Value) : Cell → Value :=
  writes.foldl (fun memory write =>
    Function.update memory write.1 (write.2 (memory write.1))) memory

theorem modify_untouched {writes : List (Cell × (Value → Value))}
    (untouched : ∀ write ∈ writes, write.1 ≠ cell) (memory : Cell → Value) :
    modify writes memory cell = memory cell := by
  induction writes generalizing memory with
  | nil => rfl
  | cons write writes inductionHypothesis =>
      have different := untouched write List.mem_cons_self
      calc modify (write :: writes) memory cell
          = modify writes (Function.update memory write.1 (write.2 (memory write.1))) cell := rfl
        _ = Function.update memory write.1 (write.2 (memory write.1)) cell :=
          inductionHypothesis (fun other mem => untouched other (List.mem_cons_of_mem _ mem)) _
        _ = memory cell := Function.update_of_ne (Ne.symm different) _ _

/-- A cell that is written once holds what its write makes of the first value. -/
theorem modify_once {writes : List (Cell × (Value → Value))}
    (distinct : (writes.map Prod.fst).Nodup) {write : Cell × (Value → Value)} (mem : write ∈ writes)
    (memory : Cell → Value) : modify writes memory write.1 = write.2 (memory write.1) := by
  induction writes generalizing memory with
  | nil => exact absurd mem List.not_mem_nil
  | cons first writes inductionHypothesis =>
      obtain ⟨absent, rest⟩ := List.nodup_cons.mp distinct
      change modify writes (Function.update memory first.1 (first.2 (memory first.1))) write.1 = _
      rcases List.mem_cons.mp mem with rfl | later
      · rw [modify_untouched, Function.update_self]
        intro other inside same
        exact absent (List.mem_map.mpr ⟨other, inside, same⟩)
      · have different : write.1 ≠ first.1 := by
          intro same
          exact absent (List.mem_map.mpr ⟨write, later, same⟩)
        rw [inductionHypothesis rest later, Function.update_of_ne different]

/-- The writes of several batches are one list of writes. -/
theorem modify_flatMap {Batch : Type} (batches : List Batch)
    (writes : Batch → List (Cell × (Value → Value))) (memory : Cell → Value) :
    batches.foldl (fun memory batch => modify (writes batch) memory) memory =
      modify (batches.flatMap writes) memory := by
  induction batches generalizing memory with
  | nil => rfl
  | cons batch batches inductionHypothesis =>
      rw [List.foldl_cons, inductionHypothesis, List.flatMap_cons]
      exact (List.foldl_append ..).symm

/-- Writes to distinct cells may be exchanged. -/
theorem modify_perm {writes others : List (Cell × (Value → Value))} (same : writes.Perm others)
    (distinct : (writes.map Prod.fst).Nodup) (memory : Cell → Value) :
    modify writes memory = modify others memory := by
  have otherDistinct : (others.map Prod.fst).Nodup := (same.map Prod.fst).nodup_iff.mp distinct
  funext cell
  by_cases touched : ∃ write ∈ writes, write.1 = cell
  · obtain ⟨write, mem, rfl⟩ := touched
    rw [modify_once distinct mem, modify_once otherDistinct (same.mem_iff.mp mem)]
  · have first : ∀ write ∈ writes, write.1 ≠ cell := fun write mem equal =>
      touched ⟨write, mem, equal⟩
    have second : ∀ write ∈ others, write.1 ≠ cell := fun write mem =>
      first write (same.mem_iff.mpr mem)
    rw [modify_untouched first, modify_untouched second]

section Acts

/-- A step that may fail makes these writes to the cells of its own, whatever they hold. -/
structure Acts (own : Cell → Prop) (start : Cell → Value)
    (step : (Cell → Value) → Option (Cell → Value)) (writes : List (Cell × (Value → Value))) :
    Prop where
  inside : ∀ write ∈ writes, own write.1
  runs : ∀ memory, (∀ cell, ¬own cell → memory cell = start cell) →
    step memory = some (modify writes memory)

variable {own : Cell → Prop} {start : Cell → Value}

/-- Steps that read no cell of each other make all of their writes. -/
theorem Acts.foldlM {Item : Type} {step : (Cell → Value) → Item → Option (Cell → Value)}
    {items : List Item} {writes : Item → List (Cell × (Value → Value))}
    (each : ∀ item ∈ items, Acts own start (fun memory => step memory item) (writes item)) :
    Acts own start (fun memory => items.foldlM step memory) (items.flatMap writes) := by
  refine ⟨?_, ?_⟩
  · intro write mem
    obtain ⟨item, member, written⟩ := List.mem_flatMap.mp mem
    exact (each item member).inside write written
  · induction items with
    | nil => exact fun _ _ => rfl
    | cons item items inductionHypothesis =>
        intro memory agrees
        have first := each item List.mem_cons_self
        have kept : ∀ cell, ¬own cell → modify (writes item) memory cell = start cell := by
          intro cell foreign
          rw [modify_untouched, agrees cell foreign]
          intro write mem same
          exact foreign (same ▸ first.inside write mem)
        have rest := inductionHypothesis (fun other member =>
          each other (List.mem_cons_of_mem _ member)) _ kept
        calc (item :: items).foldlM step memory
            = (step memory item).bind fun memory => items.foldlM step memory := List.foldlM_cons
          _ = some (modify (items.flatMap writes) (modify (writes item) memory)) := by
            rw [first.runs memory agrees, Option.bind_some, rest]
          _ = some (modify ((item :: items).flatMap writes) memory) := by
            rw [List.flatMap_cons, modify, modify, modify, List.foldl_append]

end Acts

/-- The threads of a launch run in some order. -/
def launch (kernel : Thread → List (Cell × Value)) (order : List Thread) (memory : Cell → Value) :
    Cell → Value :=
  commit (order.flatMap kernel) memory

variable {kernel : Thread → List (Cell × Value)} {order : List Thread}

/-- A launch leaves the value of each cell that some thread writes. -/
theorem launch_determined (determined : ∀ thread ∈ order, Determined (kernel thread) result)
    {thread : Thread} (runs : thread ∈ order) (touched : ∃ write ∈ kernel thread, write.1 = cell)
    (memory : Cell → Value) : launch kernel order memory cell = result cell := by
  apply commit_determined
  · intro write mem
    obtain ⟨other, inside, written⟩ := List.mem_flatMap.mp mem
    exact determined other inside write written
  · obtain ⟨write, written, same⟩ := touched
    exact ⟨write, List.mem_flatMap.mpr ⟨thread, runs, written⟩, same⟩

theorem launch_untouched
    (untouched : ∀ thread ∈ order, ∀ write ∈ kernel thread, write.1 ≠ cell) (memory : Cell → Value) :
    launch kernel order memory cell = memory cell := by
  apply commit_untouched
  intro write mem
  obtain ⟨thread, inside, written⟩ := List.mem_flatMap.mp mem
  exact untouched thread inside write written

section Blocks

variable {Entry : Type}

/-- The blocks of a table are written one after the other, with a running place. -/
def blockWrites (write : Nat → Nat → List Entry → List (Cell × Value)) :
    List (List Entry) → Nat → Nat → List (Cell × Value)
  | [], _, _ => []
  | block :: blocks, number, place =>
      write number place block ++ blockWrites write blocks (number + 1) (place + block.length)

/-- This is the running place at a block. -/
def blockPlace (blocks : List (List Entry)) (number : Nat) : Nat :=
  ((blocks.take number).map List.length).sum

theorem blockPlace_cons (block : List Entry) (blocks : List (List Entry)) (number : Nat) :
    blockPlace (block :: blocks) (number + 1) = block.length + blockPlace blocks number := by
  rw [blockPlace, List.take_succ_cons, List.map_cons, List.sum_cons]
  rfl

omit [DecidableEq Cell] in
/-- Each write belongs to one block at its place. -/
theorem mem_blockWrites {write : Nat → Nat → List Entry → List (Cell × Value)}
    {blocks : List (List Entry)} {number place : Nat} {item : Cell × Value} :
    item ∈ blockWrites write blocks number place ↔
      ∃ i block, blocks[i]? = some block ∧
        item ∈ write (number + i) (place + blockPlace blocks i) block := by
  induction blocks generalizing number place with
  | nil => simp [blockWrites]
  | cons block blocks inductionHypothesis =>
      rw [blockWrites, List.mem_append, inductionHypothesis]
      constructor
      · rintro (first | ⟨i, later, found, mem⟩)
        · exact ⟨0, block, rfl, first⟩
        · refine ⟨i + 1, later, found, ?_⟩
          rwa [blockPlace_cons, show number + (i + 1) = number + 1 + i by omega, ← Nat.add_assoc place]
      · rintro ⟨i, later, found, mem⟩
        cases i with
        | zero =>
            cases found
            exact Or.inl mem
        | succ i =>
            refine Or.inr ⟨i, later, found, ?_⟩
            rwa [blockPlace_cons, show number + (i + 1) = number + 1 + i by omega, ← Nat.add_assoc place] at mem

/-- The entries of the rows of a table are written with their positions. -/
def rowWrites (cell : Nat → Nat → Nat → Cell) (rows : List (List Value)) : List (Cell × Value) :=
  rows.zipIdx.flatMap fun (row, i) => row.zipIdx.map fun (value, j) => (cell i row.length j, value)

omit [DecidableEq Cell] in
theorem mem_rowWrites {cell : Nat → Nat → Nat → Cell} {rows : List (List Value)}
    {item : Cell × Value} :
    item ∈ rowWrites cell rows ↔
      ∃ (i : Nat) (row : List Value) (j : Nat) (value : Value), rows[i]? = some row ∧
        row[j]? = some value ∧ item = (cell i row.length j, value) := by
  simp only [rowWrites, List.mem_flatMap, List.mem_map, List.mem_zipIdx_iff_getElem?]
  constructor
  · rintro ⟨⟨row, i⟩, inside, ⟨value, j⟩, entry, rfl⟩
    exact ⟨i, row, j, value, inside, entry, rfl⟩
  · rintro ⟨i, row, j, value, inside, entry, rfl⟩
    exact ⟨(row, i), inside, (value, j), entry, rfl⟩

end Blocks

end Scatter
