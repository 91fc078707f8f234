/-
This file develops the reversal of the low bits of a number.
-/

import Mathlib.Tactic

namespace BitReversal

/-- The lowest bit goes to the highest place. -/
def reverse : Nat → Nat → Nat
  | 0, _ => 0
  | width + 1, x => x % 2 * 2 ^ width + reverse width (x / 2)

theorem reverse_lt (width x : Nat) : reverse width x < 2 ^ width := by
  induction width generalizing x with
  | zero => exact Nat.one_pos
  | succ width inductionHypothesis =>
      have low := inductionHypothesis (x / 2)
      have bit : x % 2 * 2 ^ width ≤ 2 ^ width := by
        calc x % 2 * 2 ^ width ≤ 1 * 2 ^ width := Nat.mul_le_mul_right _ (by omega)
          _ = 2 ^ width := Nat.one_mul _
      have double : 2 ^ (width + 1) = 2 ^ width + 2 ^ width := by ring
      rw [reverse, double]
      omega

theorem reverse_zero (width : Nat) : reverse width 0 = 0 := by
  induction width with
  | zero => rfl
  | succ width inductionHypothesis =>
      rw [reverse, Nat.zero_mod, Nat.zero_div, inductionHypothesis, Nat.zero_mul]

/-- The two parts of a number are reversed apart and change their places. -/
theorem reverse_append (low high x : Nat) {y : Nat} (small : y < 2 ^ low) :
    reverse (low + high) (x * 2 ^ low + y) = reverse low y * 2 ^ high + reverse high x := by
  induction low generalizing y with
  | zero =>
      have nothing : y = 0 := by simpa using small
      rw [nothing, Nat.zero_add, pow_zero, Nat.mul_one, Nat.add_zero, reverse, Nat.zero_mul,
        Nat.zero_add]
  | succ low inductionHypothesis =>
      have half : y / 2 < 2 ^ low := by
        rw [pow_succ] at small
        omega
      have split : x * 2 ^ (low + 1) + y = 2 * (x * 2 ^ low) + y := by ring
      have bit : (x * 2 ^ (low + 1) + y) % 2 = y % 2 := by omega
      have rest : (x * 2 ^ (low + 1) + y) / 2 = x * 2 ^ low + y / 2 := by omega
      rw [show low + 1 + high = low + high + 1 by omega, reverse, bit, rest,
        inductionHypothesis half, reverse]
      ring

/-- A number that has fewer bits is moved up. -/
theorem reverse_widen (low high : Nat) {x : Nat} (small : x < 2 ^ low) :
    reverse (low + high) x = reverse low x * 2 ^ high := by
  have parts := reverse_append low high 0 small
  rwa [Nat.zero_mul, Nat.zero_add, reverse_zero, Nat.add_zero] at parts

/-- A number that ends in zeros is moved down. -/
theorem reverse_shift (low high x : Nat) : reverse (low + high) (x * 2 ^ low) = reverse high x := by
  have parts := reverse_append low high x (Nat.two_pow_pos low)
  rwa [Nat.add_zero, reverse_zero, Nat.zero_mul, Nat.zero_add] at parts

theorem reverse_mod (width x : Nat) : reverse width (x % 2 ^ width) = reverse width x := by
  induction width generalizing x with
  | zero => rfl
  | succ width inductionHypothesis =>
      have bit : x % 2 ^ (width + 1) % 2 = x % 2 :=
        Nat.mod_mod_of_dvd _ (dvd_pow_self 2 width.succ_ne_zero)
      have rest : x % 2 ^ (width + 1) / 2 = x / 2 % 2 ^ width := by
        rw [pow_succ', Nat.mod_mul_right_div_self]
      rw [reverse, reverse, bit, rest, inductionHypothesis]

/-- The reversal of a wide word holds the reversal of its low part on top. -/
theorem reverse_div (width : Nat) {low : Nat} (narrow : low ≤ width) (x : Nat) :
    reverse width x / 2 ^ (width - low) = reverse low x := by
  obtain ⟨high, rfl⟩ := Nat.exists_eq_add_of_le narrow
  have parts := reverse_append low high (x / 2 ^ low) (Nat.mod_lt x (Nat.two_pow_pos low))
  rw [Nat.div_add_mod'] at parts
  rw [parts, Nat.add_sub_cancel_left, Nat.mul_comm, Nat.mul_add_div (Nat.two_pow_pos high),
    Nat.div_eq_of_lt (reverse_lt high _), Nat.add_zero, reverse_mod]

theorem reverse_testBit (width x place : Nat) :
    (reverse width x).testBit place = (decide (place < width) && x.testBit (width - 1 - place)) := by
  induction width generalizing x place with
  | zero => simp [reverse]
  | succ width inductionHypothesis =>
      have small := reverse_lt width (x / 2)
      rw [reverse, Nat.mul_comm, Nat.testBit_two_pow_mul_add _ small]
      by_cases low : place < width
      · rw [if_pos low, inductionHypothesis, Nat.testBit_div_two]
        have next : width - 1 - place + 1 = width + 1 - 1 - place := by omega
        have inside : place < width + 1 := by omega
        simp only [low, inside, decide_true, Bool.true_and, next]
      · rw [if_neg low]
        by_cases top : place = width
        · subst top
          have inside : place < place + 1 := by omega
          simp only [inside, decide_true, Bool.true_and, Nat.sub_self, Nat.add_sub_cancel]
          rcases Nat.mod_two_eq_zero_or_one x with even | odd
          · simp [even, Nat.testBit_zero]
          · simp [odd, Nat.testBit_zero]
        · have outside : ¬place < width + 1 := by omega
          have bit : x % 2 < 2 ^ (place - width) := by
            calc x % 2 < 2 ^ 1 := Nat.mod_lt _ two_pos
              _ ≤ 2 ^ (place - width) := Nat.pow_le_pow_right two_pos (by omega)
          rw [Nat.testBit_lt_two_pow bit]
          simp only [outside, decide_false, Bool.false_and]

/-- A second reversal restores the number. -/
theorem reverse_reverse {width x : Nat} (small : x < 2 ^ width) :
    reverse width (reverse width x) = x := by
  apply Nat.eq_of_testBit_eq
  intro place
  rw [reverse_testBit, reverse_testBit]
  by_cases inside : place < width
  · have mirror : width - 1 - place < width := by omega
    have back : width - 1 - (width - 1 - place) = place := by omega
    simp only [inside, mirror, decide_true, Bool.true_and, back]
  · have large : x < 2 ^ place := small.trans_le (Nat.pow_le_pow_right two_pos (by omega))
    rw [Nat.testBit_lt_two_pow large]
    simp only [inside, decide_false, Bool.false_and]

example : (List.range 8).map (reverse 3) = [0, 4, 2, 6, 1, 5, 3, 7] := by decide

end BitReversal
