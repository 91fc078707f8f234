/-
This file gives the rules for loops that double their counter and for folds that halve an array.
-/

import Mathlib.Tactic
import Mathlib.Algebra.BigOperators.Fin

namespace ShiftLoop

variable {State Other : Type}

/-- This is the loop that starts at a counter and shifts it after every round. A round may fail. -/
def run (limit shift : Nat) (round : Nat → State → Option State) :
    Nat → Nat → State → Option State
  | 0, _, _ => none
  | fuel + 1, counter, state =>
      if counter < limit then
        (round counter state).bind fun next => run limit shift round fuel (counter <<< shift) next
      else some state

variable {limit shift : Nat} {round : Nat → State → Option State}

theorem run_stop {counter : Nat} (stop : limit ≤ counter) (fuel : Nat) (state : State) :
    run limit shift round (fuel + 1) counter state = some state :=
  if_neg (Nat.not_lt.mpr stop)

theorem run_round {counter : Nat} (inside : counter < limit) (fuel : Nat) {state next : State}
    (moved : round counter state = some next) :
    run limit shift round (fuel + 1) counter state =
      run limit shift round fuel (counter <<< shift) next := by
  rw [run, if_pos inside, moved]
  rfl

/-- More fuel keeps the result. -/
theorem run_mono {fuel more counter : Nat} (enough : fuel ≤ more) {state result : State}
    (ran : run limit shift round fuel counter state = some result) :
    run limit shift round more counter state = some result := by
  induction fuel generalizing more counter state with
  | zero => cases ran
  | succ fuel inductionHypothesis =>
      obtain ⟨rest, rfl⟩ : ∃ rest, more = rest + 1 := ⟨more - 1, by omega⟩
      rw [run] at ran ⊢
      by_cases inside : counter < limit
      · rw [if_pos inside] at ran ⊢
        obtain ⟨next, moved, later⟩ := Option.bind_eq_some_iff.mp ran
        rw [moved]
        exact inductionHypothesis (by omega) later
      · rwa [if_neg inside] at ran ⊢

/-- Two runs of one loop agree where both return. -/
theorem run_unique {first second counter : Nat} {state one two : State}
    (ranFirst : run limit shift round first counter state = some one)
    (ranSecond : run limit shift round second counter state = some two) : one = two := by
  have left := run_mono (Nat.le_max_left first second) ranFirst
  have right := run_mono (Nat.le_max_right first second) ranSecond
  exact Option.some.inj (left.symm.trans right)

theorem lt_shift {counter : Nat} (positive : 0 < counter) (moves : 0 < shift) :
    counter < counter <<< shift := by
  rw [Nat.shiftLeft_eq]
  exact lt_mul_of_one_lt_right positive (Nat.one_lt_two_pow moves.ne')

/-- A property of counter and state that every round keeps holds where the loop returns. -/
theorem run_returns (property : Nat → State → Prop) (moves : 0 < shift)
    (kept : ∀ counter state, 0 < counter → counter < limit → property counter state →
      ∃ next, round counter state = some next ∧ property (counter <<< shift) next)
    {counter : Nat} (positive : 0 < counter) {state : State} (first : property counter state) :
    ∃ fuel last result, run limit shift round fuel counter state = some result ∧
      limit ≤ last ∧ property last result := by
  obtain ⟨distance, near⟩ : ∃ distance, limit ≤ counter + distance := ⟨limit, by omega⟩
  induction distance generalizing counter state with
  | zero => exact ⟨1, counter, state, run_stop near 0 state, near, first⟩
  | succ distance inductionHypothesis =>
      by_cases inside : counter < limit
      · obtain ⟨next, moved, held⟩ := kept counter state positive inside first
        have further := @lt_shift shift counter positive moves
        obtain ⟨fuel, last, result, ran, beyond, done⟩ :=
          inductionHypothesis (positive.trans further) held (by omega)
        exact ⟨fuel + 1, last, result, (run_round inside fuel moved).trans ran, beyond, done⟩
      · exact ⟨1, counter, state, run_stop (by omega) 0 state, by omega, first⟩

/-- A loop with a scaled counter follows a loop whose rounds it matches. -/
theorem run_scaled (scale : Nat) (positive : 0 < scale) {other : Nat → Other → Option Other}
    (related : State → Other → Prop)
    (kept : ∀ counter state next shadow, counter < limit → related state shadow →
      round counter state = some next →
        ∃ after, other (scale * counter) shadow = some after ∧ related next after)
    {fuel counter : Nat} {state result : State} {shadow : Other} (first : related state shadow)
    (ran : run limit shift round fuel counter state = some result) :
    ∃ after, run (scale * limit) shift other fuel (scale * counter) shadow = some after ∧
      related result after := by
  induction fuel generalizing counter state shadow with
  | zero => cases ran
  | succ fuel inductionHypothesis =>
      by_cases inside : counter < limit
      · rw [run, if_pos inside] at ran
        obtain ⟨next, moved, later⟩ := Option.bind_eq_some_iff.mp ran
        obtain ⟨after, followed, held⟩ := kept counter state next shadow inside first moved
        have scaled : scale * counter < scale * limit := Nat.mul_lt_mul_of_pos_left inside positive
        have shifted : (scale * counter) <<< shift = scale * counter <<< shift := by
          rw [Nat.shiftLeft_eq, Nat.shiftLeft_eq, Nat.mul_assoc]
        rw [run_round scaled fuel followed, shifted]
        exact inductionHypothesis held later
      · rw [run, if_neg inside] at ran
        cases ran
        exact ⟨shadow, run_stop (Nat.mul_le_mul_left _ (Nat.not_lt.mp inside)) fuel shadow, first⟩

end ShiftLoop

namespace HalvingFold

variable {A B : Type}

/-- One round adds in place from the lowest place on. -/
def round (add : A → A → A) (active : Nat) (results : Nat → A) : Nat → A :=
  (List.range (active / 2)).foldl
    (fun results j => Function.update results j (add (results j) (results (j + active / 2))))
    results

/-- The rounds go on while more than one place is active. -/
def fold (add : A → A → A) (active : Nat) (results : Nat → A) : A :=
  if 1 < active then fold add (active / 2) (round add active results) else results 0
termination_by active

theorem round_apply (add : A → A → A) (active : Nat) (results : Nat → A) (place : Nat) :
    round add active results place =
      if place < active / 2 then add (results place) (results (place + active / 2))
      else results place := by
  rw [round]
  generalize active / 2 = half
  have partway : ∀ count ≤ half, ∀ place,
      (List.range count).foldl
          (fun results j => Function.update results j (add (results j) (results (j + half))))
          results place =
        if place < count then add (results place) (results (place + half)) else results place := by
    intro count few
    induction count with
    | zero =>
        intro place
        simp
    | succ count inductionHypothesis =>
        intro place
        rw [List.range_succ, List.foldl_append, List.foldl_cons, List.foldl_nil,
          Function.update_apply]
        by_cases same : place = count
        · rw [if_pos same, if_pos (by omega), inductionHypothesis (by omega) count,
            inductionHypothesis (by omega) (count + half), if_neg (lt_irrefl count),
            if_neg (by omega), same]
        · rw [if_neg same, inductionHypothesis (by omega) place]
          by_cases below : place < count
          · rw [if_pos below, if_pos (by omega)]
          · rw [if_neg below, if_neg (by omega)]
  exact partway half le_rfl place

theorem fold_more (add : A → A → A) {active : Nat} (more : 1 < active) (results : Nat → A) :
    fold add active results = fold add (active / 2) (round add active results) := by
  rw [fold, if_pos more]

theorem fold_stop (add : A → A → A) {active : Nat} (stop : ¬1 < active) (results : Nat → A) :
    fold add active results = results 0 := by
  rw [fold, if_neg stop]

/-- A fold goes over to what a homomorphism reads. -/
theorem fold_map {add : A → A → A} {other : B → B → B} (read : A → B)
    (carries : ∀ first second, read (add first second) = other (read first) (read second))
    (active : Nat) (results : Nat → A) :
    read (fold add active results) = fold other active fun place => read (results place) := by
  induction active using Nat.strong_induction_on generalizing results with
  | _ active inductionHypothesis =>
      by_cases more : 1 < active
      · rw [fold_more add more, fold_more other more, inductionHypothesis _ (by omega)]
        congr 1
        funext place
        rw [round_apply, round_apply]
        by_cases below : place < active / 2
        · rw [if_pos below, if_pos below, carries]
        · rw [if_neg below, if_neg below]
      · rw [fold_stop add more, fold_stop other more]

/-- A fold reads active places only. -/
theorem fold_congr {add : A → A → A} {active : Nat} (started : 0 < active) {first second : Nat → A}
    (same : ∀ place < active, first place = second place) :
    fold add active first = fold add active second := by
  induction active using Nat.strong_induction_on generalizing first second with
  | _ active inductionHypothesis =>
      by_cases more : 1 < active
      · rw [fold_more add more, fold_more add more]
        apply inductionHypothesis _ (by omega) (by omega)
        intro place inside
        rw [round_apply, round_apply, if_pos inside, if_pos inside, same place (by omega),
          same (place + active / 2) (by omega)]
      · rw [fold_stop add more, fold_stop add more, same 0 started]

/-- What all active places have and the operation keeps holds of the fold. -/
theorem fold_invariant {add : A → A → A} (property : A → Prop)
    (keeps : ∀ first second, property first → property second → property (add first second))
    {active : Nat} (started : 0 < active) {results : Nat → A}
    (holds : ∀ place < active, property (results place)) : property (fold add active results) := by
  induction active using Nat.strong_induction_on generalizing results with
  | _ active inductionHypothesis =>
      by_cases more : 1 < active
      · rw [fold_more add more]
        apply inductionHypothesis _ (by omega) (by omega)
        intro place inside
        rw [round_apply, if_pos inside]
        exact keeps _ _ (holds place (by omega)) (holds (place + active / 2) (by omega))
      · rw [fold_stop add more]
        exact holds 0 started

section Sums

variable [AddCommMonoid A]

/-- A power of two is summed up. -/
theorem fold_sum (exponent : Nat) (results : Nat → A) :
    fold (· + ·) (2 ^ exponent) results = ∑ place ∈ Finset.range (2 ^ exponent), results place := by
  induction exponent generalizing results with
  | zero =>
      rw [pow_zero, fold_stop _ (lt_irrefl 1), Finset.sum_range_one]
  | succ exponent inductionHypothesis =>
      have half : 2 ^ (exponent + 1) / 2 = 2 ^ exponent := by omega
      rw [fold_more _ (Nat.one_lt_two_pow exponent.succ_ne_zero), half, inductionHypothesis,
        show 2 ^ (exponent + 1) = 2 ^ exponent + 2 ^ exponent by omega, Finset.sum_range_add,
        ← Finset.sum_add_distrib]
      apply Finset.sum_congr rfl
      intro place inside
      rw [round_apply, if_pos (by rw [Finset.mem_range] at inside; omega), Nat.add_comm place]
      congr 2
      omega

/-- Nothing is left where nothing was active. -/
theorem fold_zero {active : Nat} (started : 0 < active) {results : Nat → A}
    (empty : ∀ place < active, results place = 0) : fold (· + ·) active results = 0 :=
  fold_invariant (· = 0) (fun first second left right => by rw [left, right, add_zero]) started empty

/-- Any other count drops a place. -/
theorem fold_drops {active : Nat} (started : 0 < active) (uneven : ∀ exponent, active ≠ 2 ^ exponent) :
    ∃ dropped < active, ∀ results : Nat → A, (∀ place ≠ dropped, results place = 0) →
      fold (· + ·) active results = 0 := by
  induction active using Nat.strong_induction_on with
  | _ active inductionHypothesis =>
      have more : 1 < active := by
        have one := uneven 0
        rw [pow_zero] at one
        omega
      by_cases odd : active % 2 = 1
      · refine ⟨active - 1, by omega, ?_⟩
        intro results empty
        rw [fold_more _ more]
        apply fold_zero (by omega)
        intro place inside
        rw [round_apply, if_pos inside, empty place (by omega),
          empty (place + active / 2) (by omega), add_zero]
      · have half : ∀ exponent, active / 2 ≠ 2 ^ exponent := by
          intro exponent same
          apply uneven (exponent + 1)
          rw [pow_succ]
          omega
        obtain ⟨dropped, inside, drops⟩ := inductionHypothesis (active / 2) (by omega) (by omega) half
        refine ⟨dropped, by omega, ?_⟩
        intro results empty
        rw [fold_more _ more]
        apply drops
        intro place other
        rw [round_apply]
        by_cases below : place < active / 2
        · rw [if_pos below, empty place other, zero_add]
          apply empty
          omega
        · rw [if_neg below, empty place other]

end Sums

end HalvingFold
