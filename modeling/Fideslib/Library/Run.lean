/-
This file develops runs of a state machine and programs that succeed together.
-/

import Mathlib.Tactic

namespace StateMachine

variable {State Action : Type}

/-- A run takes steps whose actions all meet one guard. -/
inductive Run (step : Action → State → State → Prop) (guard : Action → State → Prop)
    (initial : State) : State → Prop
  | start : Run step guard initial initial
  | next {before after : State} {action : Action} (past : Run step guard initial before)
      (meets : guard action before) (moves : step action before after) :
      Run step guard initial after

variable {step : Action → State → State → Prop} {guard : Action → State → Prop}
  {initial state : State}

/-- A property that holds first and survives each guarded step holds in every run. -/
theorem Run.invariant (property : State → Prop) (first : property initial)
    (kept : ∀ action before after, guard action before → step action before after →
      property before → property after)
    (run : Run step guard initial state) : property state := by
  induction run with
  | start => exact first
  | next past meets moves ih => exact kept _ _ _ meets moves ih

/-- A weaker guard keeps every run. -/
theorem Run.weaken {weaker : Action → State → Prop}
    (implies : ∀ action before, guard action before → weaker action before)
    (run : Run step guard initial state) : Run step weaker initial state := by
  induction run with
  | start => exact .start
  | next past meets moves ih => exact .next ih (implies _ _ meets) moves

section Undoing

variable {Value : Type} (good : State → Prop) (value : State → Value)

/-- A step from a good state computes this function of its value. -/
def Computes (function : Value → Value) (step : State → State → Prop) : Prop :=
  ∀ before after, good before → step before after → good after ∧ value after = function (value before)

/-- The second step returns to the value that the first one has begun with. -/
def Undoes (first second : State → State → Prop) : Prop :=
  ∀ before between after, good before → first before between → second between after →
    value after = value before

variable {good : State → Prop} {value : State → Value} {forward backward : Value → Value}
  {first second : State → State → Prop} {fits : Prop} (computes : Computes good value forward first)
  (total : ∀ before, good before → ∃ after, first before after)
  (left : ∀ held, backward (forward held) = held) (right : ∀ held, forward (backward held) = held)

include computes total left right

/-- Two steps undo each other exactly where the second one always computes the inverse. -/
theorem undoes_iff (reached : ∀ held, ∃ state, good state ∧ value state = held)
    (inverse : fits → Computes good value backward second)
    (wrong : ¬fits → ∃ held, ∀ before, good before → value before = held →
      ∃ after, second before after ∧ good after ∧ value after ≠ backward held) :
    (Undoes good value first second ↔ fits) ∧ (Undoes good value second first ↔ fits) := by
  refine ⟨⟨fun undoes => ?_, fun fit before between after start there back => ?_⟩,
    fun undoes => ?_, fun fit before between after start there back => ?_⟩
  · by_contra apart
    obtain ⟨held, wrongs⟩ := wrong apart
    obtain ⟨before, start, holds⟩ := reached (backward held)
    obtain ⟨between, there⟩ := total before start
    obtain ⟨middle, turned⟩ := computes before between start there
    obtain ⟨after, back, -, differs⟩ := wrongs between middle (by rw [turned, holds, right])
    exact differs ((undoes before between after start there back).trans holds)
  · obtain ⟨middle, turned⟩ := computes before between start there
    rw [(inverse fit between after middle back).2, turned, left]
  · by_contra apart
    obtain ⟨held, wrongs⟩ := wrong apart
    obtain ⟨before, start, holds⟩ := reached held
    obtain ⟨between, there, middle, differs⟩ := wrongs before start holds
    obtain ⟨after, back⟩ := total between middle
    have returned := undoes before between after start there back
    rw [(computes between after middle back).2, holds] at returned
    exact differs (by rw [← returned, left])
  · obtain ⟨middle, turned⟩ := inverse fit before between start there
    rw [(computes between after middle back).2, turned, right]

omit computes total left right in
/-- The steps return to all words of a good state as well where its value holds them. -/
theorem undoes_words_iff {Words : Type} {words : State → Words}
    (coarse : ∀ state other, words state = words other → value state = value other)
    (exact_ : ∀ state other, good state → good other → value state = value other →
      words state = words other)
    (there : fits → Computes good value forward first)
    (back : fits → Computes good value backward second)
    (undo : Undoes good value first second ↔ fits) : Undoes good words first second ↔ fits := by
  refine ⟨fun undoes => undo.mp fun before between after start forth home => ?_,
    fun fit before between after start forth home => ?_⟩
  · exact coarse after before (undoes before between after start forth home)
  · have middle := (there fit before between start forth).1
    have last := (back fit between after middle home).1
    exact exact_ after before last start (undo.mpr fit before between after start forth home)

end Undoing

end StateMachine

namespace Lockstep

variable {State Shadow Value Next Item : Type}

/-- From related states both programs succeed with one value and with related states. -/
def InStep (relation : State → Shadow → Prop) (program : StateT State Option Value)
    (other : StateT Shadow Option Value) : Prop :=
  ∀ state shadow, relation state shadow → ∃ value after shadowAfter,
    program.run state = some (value, after) ∧ other.run shadow = some (value, shadowAfter) ∧
      relation after shadowAfter

variable {relation : State → Shadow → Prop}

theorem InStep.returns (value : Value) :
    InStep relation (Pure.pure value : StateT State Option Value) (Pure.pure value) := by
  intro state shadow related
  exact ⟨value, state, shadow, rfl, rfl, related⟩

/-- Two programs that stay in lockstep may be followed by such programs. -/
theorem InStep.bind {program : StateT State Option Value}
    {other : StateT Shadow Option Value} {next : Value → StateT State Option Next}
    {otherNext : Value → StateT Shadow Option Next}
    (first : InStep relation program other)
    (second : ∀ value, InStep relation (next value) (otherNext value)) :
    InStep relation (program >>= next) (other >>= otherNext) := by
  intro state shadow related
  obtain ⟨value, middle, shadowMiddle, moved, otherMoved, held⟩ := first state shadow related
  obtain ⟨result, after, shadowAfter, ran, otherRan, kept⟩ :=
    second value middle shadowMiddle held
  refine ⟨result, after, shadowAfter, ?_, ?_, kept⟩
  · rw [StateT.run_bind, moved]
    exact ran
  · rw [StateT.run_bind, otherMoved]
    exact otherRan

/-- A loop stays in lockstep when its body does. -/
theorem InStep.foldlM {body : Value → Item → StateT State Option Value}
    {other : Value → Item → StateT Shadow Option Value} {items : List Item}
    (rounds : ∀ value, ∀ item ∈ items, InStep relation (body value item) (other value item))
    (value : Value) :
    InStep relation (items.foldlM body value) (items.foldlM other value) := by
  induction items generalizing value with
  | nil => exact InStep.returns value
  | cons item rest inductionHypothesis =>
      rw [List.foldlM_cons, List.foldlM_cons]
      apply InStep.bind (rounds value item List.mem_cons_self)
      intro middle
      exact inductionHypothesis
        (fun value other listed => rounds value other (List.mem_cons_of_mem _ listed)) middle

theorem InStep.forM {body : Item → StateT State Option PUnit}
    {other : Item → StateT Shadow Option PUnit} {items : List Item}
    (rounds : ∀ item ∈ items, InStep relation (body item) (other item)) :
    InStep relation (items.forM body) (items.forM other) := by
  induction items with
  | nil => exact InStep.returns PUnit.unit
  | cons item rest inductionHypothesis =>
      change InStep relation (body item >>= fun _ => rest.forM body)
        (other item >>= fun _ => rest.forM other)
      apply InStep.bind (rounds item List.mem_cons_self)
      intro _
      exact inductionHypothesis fun other listed => rounds other (List.mem_cons_of_mem _ listed)

end Lockstep
