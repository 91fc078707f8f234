/-
This file proves that the precomputed powers are the Chebyshev polynomials at one point.
-/

import Fideslib.Chebyshev.PatersonStockmeyer

namespace Fideslib.Chebyshev

open Polynomial
open Polynomial.Chebyshev (T)
open ChebyshevSeries (eval_T_double eval_T_add)

section

variable {K : Type} [Field K]

/-- The entry before an index holds the basis polynomial of that index. -/
def IsBasis (y : K) (count : Nat) (powers : List K) : Prop :=
  powers = (List.range count).map fun index => (T K (index + 1 : Nat)).eval y

namespace IsBasis

variable {y : K} {count : Nat} {powers : List K}

theorem length (basis : IsBasis y count powers) : powers.length = count := by
  rw [basis, List.length_map, List.length_range]

theorem get (basis : IsBasis y count powers) {index : Nat} (below : index < count) :
    powers[index]? = some ((T K (index + 1 : Nat)).eval y) := by
  rw [basis, List.getElem?_map, List.getElem?_range below, Option.map_some]

theorem getD (basis : IsBasis y count powers) {index : Nat} (below : index < count) :
    powers.getD index 0 = (T K (index + 1 : Nat)).eval y := by
  rw [List.getD_eq_getElem?_getD, basis.get below, Option.getD_some]

theorem last (basis : IsBasis y count powers) (positive : 0 < count) :
    powers.getLast? = some ((T K (count : Nat)).eval y) := by
  rw [List.getLast?_eq_getElem?, basis.length, basis.get (by omega), Nat.sub_add_cancel positive]

theorem append (basis : IsBasis y count powers) {value : K}
    (next : value = (T K (count + 1 : Nat)).eval y) : IsBasis y (count + 1) (powers ++ [value]) := by
  rw [IsBasis, List.range_succ, List.map_append, ← basis, next]
  rfl

end IsBasis

theorem basis_single (y : K) : IsBasis y 1 [y] := by
  simp [IsBasis]

/-- The loop over the powers keeps the basis. -/
theorem chebyshevPowers_basis (y : K) (k : Nat) (positive : 1 ≤ k) :
    ∃ powers, chebyshevPowers y k = some powers ∧ IsBasis y k powers := by
  induction k using Nat.twoStepInduction with
  | zero => omega
  | one => exact ⟨[y], rfl, basis_single y⟩
  | more i _ ih =>
      obtain ⟨powers, built, basis⟩ := ih (by omega)
      rw [chebyshevPowers, built]
      simp only [Option.bind_eq_bind, Option.bind_some]
      by_cases odd : (i + 2) % 2 = 1
      · -- the two factors have neighbouring indices, so that their distance is one
        have apart : (i + 2) / 2 + 1 = (i + 2) / 2 + 1 := rfl
        have total : (i + 2) / 2 + 1 + (i + 2) / 2 = i + 2 := by omega
        have lower := basis.get (show (i + 2) / 2 - 1 < i + 1 by omega)
        have upper := basis.get (show (i + 2) / 2 < i + 1 by omega)
        have first := basis.get (show 0 < i + 1 by omega)
        rw [Nat.sub_add_cancel (by omega)] at lower
        rw [if_pos odd, lower, upper, first]
        refine ⟨_, rfl, basis.append ?_⟩
        have sum := eval_T_add ((i + 2) / 2 + 1) ((i + 2) / 2) apart y
        rw [total] at sum
        rw [show i + 1 + 1 = i + 2 from rfl, sum]
        ring
      · have total : 2 * ((i + 2) / 2) = i + 2 := by omega
        have half := basis.get (show (i + 2) / 2 - 1 < i + 1 by omega)
        rw [Nat.sub_add_cancel (by omega)] at half
        rw [if_neg odd, half]
        refine ⟨_, rfl, basis.append ?_⟩
        have double := eval_T_double ((i + 2) / 2) y
        rw [total] at double
        exact double.symm

/-- Both vectors of doubled powers hold the basis at the multiples of k by powers of two. -/
structure IsDoubled (y : K) (k count : Nat) (powers : DoubledPowers K) : Prop where
  T2 : ∀ index, 1 ≤ index → index ≤ count →
    powers.T2[index]? = some ((T K (k * 2 ^ index : Nat)).eval y)
  T2_norescale : powers.T2_norescale = powers.T2
  length : powers.T2.length = count + 1
  T2km1 : powers.T2km1 = (T K (k * (2 ^ (count + 1) - 1) : Nat)).eval y

/-- The loop over the doubled powers keeps them and the product in step. -/
theorem doubledPowers_doubled {y : K} {k : Nat} {powers : List K} (basis : IsBasis y k powers)
    (positive : 1 ≤ k) (count : Nat) :
    ∃ doubled, doubledPowers powers count = some doubled ∧ IsDoubled y k count doubled := by
  have last := basis.last positive
  induction count with
  | zero =>
      rw [doubledPowers, last]
      refine ⟨_, rfl, ?_, rfl, rfl, ?_⟩
      · intro index atLeast atMost
        omega
      · simp
  | succ count ih =>
      obtain ⟨doubled, built, holds⟩ := ih
      have base : doublingBase ((T K (k : Nat)).eval y) doubled.T2 count =
          some ((T K (k * 2 ^ count : Nat)).eval y) := by
        by_cases first : count = 0
        · simp [doublingBase, first]
        · rw [doublingBase, if_neg first]
          exact holds.T2 count (by omega) le_rfl
      have square := eval_T_double (k * 2 ^ count) y
      rw [show 2 * (k * 2 ^ count) = k * 2 ^ (count + 1) by rw [pow_succ]; ring] at square
      have grown : k * 2 ^ (count + 1) = k * (2 ^ (count + 1) - 1) + k := by
        rw [Nat.mul_sub, mul_one, Nat.sub_add_cancel]
        exact Nat.le_mul_of_pos_right k (Nat.two_pow_pos _)
      have product := eval_T_add (k * 2 ^ (count + 1)) (k * (2 ^ (count + 1) - 1)) grown y
      have total : k * 2 ^ (count + 1) + k * (2 ^ (count + 1) - 1) =
          k * (2 ^ (count + 1 + 1) - 1) := by
        rw [← Nat.mul_add, pow_succ 2 (count + 1)]
        have := Nat.two_pow_pos (count + 1)
        congr 1
        omega
      rw [total] at product
      rw [doubledPowers, built, last]
      simp only [Option.bind_eq_bind, Option.bind_some]
      rw [base, Option.bind_some]
      refine ⟨_, rfl, ?_, ?_, ?_, ?_⟩
      · intro index atLeast atMost
        change (doubled.T2 ++ [_])[index]? = _
        by_cases new : index = count + 1
        · rw [new, ← holds.length, List.getElem?_concat_length, holds.length, square]
        · rw [List.getElem?_append_left (by rw [holds.length]; omega)]
          exact holds.T2 index atLeast (by omega)
      · change doubled.T2_norescale ++ [_] = doubled.T2 ++ [_]
        rw [holds.T2_norescale]
      · change (doubled.T2 ++ [_]).length = _
        rw [List.length_append, holds.length, List.length_singleton]
      · change doubled.T2km1 * _ + doubled.T2km1 * _ - _ = _
        rw [holds.T2km1, product, square]
        ring

variable [DecidableEq K]

/-- Skipped trivial steps do not change the affine map of the argument. -/
theorem chebyshevArgument_eq [NeZero (2 : K)] (x a b : K) :
    chebyshevArgument x a b = -1 + 2 * (x - a) / (b - a) := by
  have two : (2 : K) ≠ 0 := NeZero.ne 2
  by_cases standard : a = -1 ∧ b = 1
  · obtain ⟨left, right⟩ := standard
    have width : (1 : K) - -1 = 2 := by ring
    rw [chebyshevArgument, if_neg (by simp [left, right]), left, right, width]
    field_simp
    ring
  · have moved : a ≠ -1 ∨ b ≠ 1 := by
      by_contra both
      simp only [not_or, not_not] at both
      exact standard both
    have scaled : (if 2 / (b - a) ≠ 1 then x * (2 / (b - a)) else x) = x * (2 / (b - a)) := by
      by_cases trivial : 2 / (b - a) = 1
      · rw [trivial, mul_one, ite_self]
      · rw [if_pos trivial]
    have shifted : ∀ value shift : K,
        (if shift ≠ 0 then value + shift else value) = value + shift := by
      intro value shift
      by_cases none : shift = 0
      · rw [none, add_zero, ite_self]
      · rw [if_pos none]
    rw [chebyshevArgument, if_pos moved]
    dsimp only
    rw [scaled, shifted]
    ring

theorem linearArgument_eq [NeZero (2 : K)] (x a b : K) :
    linearArgument x a b = chebyshevArgument x a b := by
  rw [chebyshevArgument_eq, linearArgument]
  by_cases standard : a = -1 ∧ b = 1
  · rw [if_pos standard, ← chebyshevArgument_eq, chebyshevArgument, if_neg]
    simp [standard]
  · rw [if_neg standard]
    dsimp only
    by_cases none : -1 - a * (2 / (b - a)) = 0
    · have shift : a * (2 / (b - a)) = -1 := by linear_combination -none
      rw [if_neg (by simp [none])]
      linear_combination shift
    · rw [if_pos none]
      ring

end

end Fideslib.Chebyshev
