/-
This file gives the rules for loops that run one round after the other and may stop or fail.
-/

import Mathlib.Logic.Relation
import Mathlib.Tactic

namespace Loop

variable {State : Type}

/-- This runner repeats a round until the round stops or the fuel runs out. -/
def run (round : State → Option State) : Nat → State → Option State
  | 0, _ => none
  | fuel + 1, state =>
      match round state with
      | some next => run round fuel next
      | none => some state

/-- A loop returns when some fuel suffices. -/
def Returns (round : State → Option State) (state : State) : Prop :=
  ∃ fuel result, run round fuel state = some result

/-- This relation holds between two states of one loop. -/
def Leads (round : State → Option State) : State → State → Prop :=
  Relation.ReflTransGen fun before after => round before = some after

variable {round : State → Option State} {state next result : State}

/-- A loop that stops at once returns its state. -/
theorem returns_of_stop (stop : round state = none) : Returns round state :=
  ⟨1, state, by simp only [run, stop]⟩

/-- A round passes termination back and forth. -/
theorem returns_iff_next (moved : round state = some next) :
    Returns round state ↔ Returns round next := by
  constructor
  · rintro ⟨fuel, result, ran⟩
    cases fuel with
    | zero => cases ran
    | succ fuel =>
        simp only [run, moved] at ran
        exact ⟨fuel, result, ran⟩
  · rintro ⟨fuel, result, ran⟩
    refine ⟨fuel + 1, result, ?_⟩
    simpa only [run, moved] using ran

/-- A round that changes nothing never lets the loop return. -/
theorem not_returns_of_fixed (fixed : round state = some state) : ¬Returns round state := by
  rintro ⟨fuel, result, ran⟩
  induction fuel with
  | zero => cases ran
  | succ fuel ih =>
      simp only [run, fixed] at ran
      exact ih ran

/-- More fuel keeps the result. -/
theorem run_mono {fuel more : Nat} (enough : fuel ≤ more) (ran : run round fuel state = some result) :
    run round more state = some result := by
  induction fuel generalizing more state with
  | zero => cases ran
  | succ fuel ih =>
      obtain ⟨rest, rfl⟩ : ∃ rest, more = rest + 1 := ⟨more - 1, by omega⟩
      unfold run at ran ⊢
      cases moved : round state with
      | none => simpa only [moved] using ran
      | some next =>
          simp only [moved] at ran ⊢
          exact ih (by omega) ran

/-- Finitely many returning loops share enough fuel. -/
theorem returns_all_iff (states : List State) :
    (∃ fuel, ∀ state ∈ states, (run round fuel state).isSome) ↔
      ∀ state ∈ states, Returns round state := by
  constructor
  · rintro ⟨fuel, all⟩ state member
    obtain ⟨result, ran⟩ := Option.isSome_iff_exists.mp (all state member)
    exact ⟨fuel, result, ran⟩
  · intro all
    induction states with
    | nil => exact ⟨0, by simp⟩
    | cons head tail ih =>
        obtain ⟨first, result, ran⟩ := all head List.mem_cons_self
        obtain ⟨second, rest⟩ := ih fun state member => all state (List.mem_cons_of_mem _ member)
        refine ⟨max first second, ?_⟩
        intro state member
        rcases List.mem_cons.mp member with rfl | later
        · rw [run_mono (Nat.le_max_left first second) ran]
          rfl
        · obtain ⟨final, done⟩ := Option.isSome_iff_exists.mp (rest state later)
          rw [run_mono (Nat.le_max_right first second) done]
          rfl

/-- A returned state is reached by rounds and stops the loop. -/
theorem run_result {fuel : Nat} (ran : run round fuel state = some result) :
    Leads round state result ∧ round result = none := by
  induction fuel generalizing state with
  | zero => cases ran
  | succ fuel ih =>
      unfold run at ran
      split at ran
      case h_1 middle moved =>
        obtain ⟨later, stop⟩ := ih ran
        exact ⟨Relation.ReflTransGen.head moved later, stop⟩
      case h_2 stop =>
        cases ran
        exact ⟨Relation.ReflTransGen.refl, stop⟩

/-- A property that every round keeps holds in every later state. -/
theorem Leads.invariant (property : State → Prop)
    (kept : ∀ before after, round before = some after → property before → property after)
    (path : Leads round state next) (first : property state) : property next := by
  induction path with
  | refl => exact first
  | tail _ moved ih => exact kept _ _ moved ih

/-- A property that every visited item keeps holds after a partial fold. -/
theorem foldlM_invariant {Item : Type} {visit : State → Item → Option State} {items : List Item}
    (property : State → Prop)
    (kept : ∀ before item after, item ∈ items → property before → visit before item = some after →
      property after)
    (ran : items.foldlM visit state = some result) (first : property state) : property result := by
  induction items generalizing state with
  | nil =>
      cases ran
      exact first
  | cons item rest ih =>
      rw [List.foldlM_cons] at ran
      obtain ⟨middle, moved, later⟩ := Option.bind_eq_some_iff.mp ran
      have held := kept state item middle List.mem_cons_self first moved
      exact ih (fun before other after member => kept before other after
        (List.mem_cons_of_mem _ member)) later held

/-- A mark that every visit makes and no later visit removes is on every item at the end. -/
theorem foldlM_visits {Item : Type} {visit : State → Item → Option State} {items : List Item}
    (property : State → Prop) (marked : Item → State → Prop)
    (kept : ∀ before item after, item ∈ items → property before → visit before item = some after →
      property after)
    (marks : ∀ before item after, item ∈ items → property before →
      visit before item = some after → marked item after)
    (stays : ∀ other before item after, item ∈ items → property before →
      visit before item = some after → marked other before → marked other after)
    (ran : items.foldlM visit state = some result) (first : property state) :
    ∀ item ∈ items, marked item result := by
  induction items generalizing state with
  | nil => simp
  | cons head rest ih =>
      rw [List.foldlM_cons] at ran
      obtain ⟨middle, moved, later⟩ := Option.bind_eq_some_iff.mp ran
      have held := kept state head middle List.mem_cons_self first moved
      intro item member
      rcases List.mem_cons.mp member with rfl | inside
      · have now := marks state item middle List.mem_cons_self first moved
        refine (foldlM_invariant (fun current => property current ∧ marked item current) ?_ later
          ⟨held, now⟩).2
        intro before other after inRest both visited
        exact ⟨kept before other after (List.mem_cons_of_mem _ inRest) both.1 visited,
          stays item before other after (List.mem_cons_of_mem _ inRest) both.1 visited both.2⟩
      · exact ih (fun before other after inRest => kept before other after
          (List.mem_cons_of_mem _ inRest)) (fun before other after inRest => marks before other after
          (List.mem_cons_of_mem _ inRest)) (fun mark before other after inRest =>
          stays mark before other after (List.mem_cons_of_mem _ inRest)) later held item inside

/-- A partial fold succeeds when every visit succeeds. -/
theorem foldlM_succeeds {Item : Type} {visit : State → Item → Option State} {items : List Item}
    (property : State → Prop)
    (succeeds : ∀ before item, item ∈ items → property before →
      ∃ after, visit before item = some after ∧ property after)
    (first : property state) : ∃ result, items.foldlM visit state = some result := by
  induction items generalizing state with
  | nil => exact ⟨state, rfl⟩
  | cons head rest ih =>
      obtain ⟨middle, moved, held⟩ := succeeds state head List.mem_cons_self first
      obtain ⟨result, later⟩ := ih (fun before item member => succeeds before item
        (List.mem_cons_of_mem _ member)) held
      exact ⟨result, by rw [List.foldlM_cons, moved]; exact later⟩

end Loop

namespace CountedLoop

variable {Fault State : Type} {body : State → Nat → Except Fault State} {start : State}

/-- A loop whose body keeps an invariant of its counter returns with the last counter. -/
theorem range'_returns (invariant : Nat → State → Prop) (first count : Nat)
    (kept : ∀ i, first ≤ i → i < first + count → ∀ state, invariant i state →
      ∃ next, body state i = .ok next ∧ invariant (i + 1) next) (holds : invariant first start) :
    ∃ last, (List.range' first count).foldlM body start = .ok last ∧
      invariant (first + count) last := by
  induction count generalizing first start with
  | zero => exact ⟨start, rfl, holds⟩
  | succ count inductionHypothesis =>
      obtain ⟨next, moved, later⟩ := kept first le_rfl (by omega) start holds
      obtain ⟨last, done, final⟩ := inductionHypothesis (first + 1)
        (fun i above below => kept i (by omega) (by omega)) later
      refine ⟨last, ?_, ?_⟩
      · rw [List.range'_succ, List.foldlM_cons, moved]
        exact done
      · rwa [show first + (count + 1) = first + 1 + count by omega]

theorem range_returns (invariant : Nat → State → Prop) (count : Nat)
    (kept : ∀ i < count, ∀ state, invariant i state →
      ∃ next, body state i = .ok next ∧ invariant (i + 1) next) (holds : invariant 0 start) :
    ∃ last, (List.range count).foldlM body start = .ok last ∧ invariant count last := by
  have body_kept : ∀ i, 0 ≤ i → i < 0 + count → ∀ state, invariant i state →
      ∃ next, body state i = .ok next ∧ invariant (i + 1) next :=
    fun i _ below => kept i (by omega)
  have returns := range'_returns invariant 0 count body_kept holds
  rwa [Nat.zero_add, ← List.range_eq_range'] at returns

end CountedLoop
