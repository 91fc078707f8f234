/-
This file develops the levels of a number theoretic transform, its closed form and its polynomials.
-/

import Fideslib.Library.BitReversal
import Mathlib.Algebra.Polynomial.Div

namespace NegacyclicTransform

open BitReversal

variable {R : Type*} [CommRing R]

/-- A level adds and subtracts the second half of each block after its twist. -/
def ctLevel (psi : Nat → R) (m : Nat) (x : Nat → R) (p : Nat) : R :=
  if p % (2 * m) < m then x p + psi (p / (2 * m)) * x (p + m)
  else x (p - m) - psi (p / (2 * m)) * x p

/-- An inverse level twists after it adds and subtracts. -/
def gsLevel (psi : Nat → R) (m : Nat) (x : Nat → R) (p : Nat) : R :=
  if p % (2 * m) < m then x p + x (p + m) else (x (p - m) - x p) * psi (p / (2 * m))

/-- These are the levels from a half of this size down to single words. -/
def ctLevels (psi : Nat → R) : Nat → (Nat → R) → Nat → R
  | 0, x => ctLevel psi 1 x
  | s + 1, x => ctLevels psi s (ctLevel psi (2 ^ (s + 1)) x)

def gsLevels (psi : Nat → R) : Nat → (Nat → R) → Nat → R
  | 0, x => gsLevel psi 1 x
  | s + 1, x => gsLevel psi (2 ^ (s + 1)) (gsLevels psi s x)

/-- The block of a position has this number, and the position lies in its first half. -/
theorem first_half {m : Nat} (positive : 0 < m) (b : Nat) {j : Nat} (inside : j < m) :
    (b * (2 * m) + j) % (2 * m) = j ∧ (b * (2 * m) + j) / (2 * m) = b := by
  have block : j < 2 * m := by omega
  rw [Nat.mul_comm b, Nat.mul_add_mod, Nat.mod_eq_of_lt block,
    Nat.mul_add_div (by omega), Nat.div_eq_of_lt block]
  exact ⟨rfl, rfl⟩

theorem second_half {m : Nat} (b : Nat) {j : Nat} (inside : j < m) :
    (b * (2 * m) + m + j) % (2 * m) = m + j ∧ (b * (2 * m) + m + j) / (2 * m) = b := by
  have block : m + j < 2 * m := by omega
  rw [Nat.add_assoc, Nat.mul_comm b, Nat.mul_add_mod, Nat.mod_eq_of_lt block,
    Nat.mul_add_div (by omega), Nat.div_eq_of_lt block]
  exact ⟨rfl, rfl⟩

/-- A position lies in the first or in the second half of its block. -/
theorem half_cases {m : Nat} (positive : 0 < m) (p : Nat) :
    ∃ b j, j < m ∧ (p = b * (2 * m) + j ∨ p = b * (2 * m) + m + j) := by
  have block : p % (2 * m) < 2 * m := Nat.mod_lt _ (by omega)
  have split := Nat.div_add_mod' p (2 * m)
  by_cases low : p % (2 * m) < m
  · exact ⟨p / (2 * m), p % (2 * m), low, .inl split.symm⟩
  · exact ⟨p / (2 * m), p % (2 * m) - m, by omega, .inr (by omega)⟩

section Levels

variable (psi : Nat → R) {m : Nat} (x : Nat → R) (b : Nat) {j : Nat}

theorem ctLevel_first (positive : 0 < m) (inside : j < m) :
    ctLevel psi m x (b * (2 * m) + j) =
      x (b * (2 * m) + j) + psi b * x (b * (2 * m) + m + j) := by
  obtain ⟨place, block⟩ := first_half positive b inside
  rw [ctLevel, place, block, if_pos inside, Nat.add_right_comm]

theorem ctLevel_second (inside : j < m) :
    ctLevel psi m x (b * (2 * m) + m + j) =
      x (b * (2 * m) + j) - psi b * x (b * (2 * m) + m + j) := by
  obtain ⟨place, block⟩ := second_half b inside
  rw [ctLevel, place, block, if_neg (by omega),
    show b * (2 * m) + m + j - m = b * (2 * m) + j by omega]

theorem gsLevel_first (positive : 0 < m) (inside : j < m) :
    gsLevel psi m x (b * (2 * m) + j) = x (b * (2 * m) + j) + x (b * (2 * m) + m + j) := by
  obtain ⟨place, -⟩ := first_half positive b inside
  rw [gsLevel, place, if_pos inside, Nat.add_right_comm]

theorem gsLevel_second (inside : j < m) :
    gsLevel psi m x (b * (2 * m) + m + j) =
      (x (b * (2 * m) + j) - x (b * (2 * m) + m + j)) * psi b := by
  obtain ⟨place, block⟩ := second_half b inside
  rw [gsLevel, place, block, if_neg (by omega),
    show b * (2 * m) + m + j - m = b * (2 * m) + j by omega]

end Levels

section Inverse

variable {psi inv : Nat → R} (inverse : ∀ b, inv b * psi b = 1)

theorem ctLevel_scale (psi : Nat → R) (m : Nat) (c : R) (x : Nat → R) :
    ctLevel psi m (fun p => c * x p) = fun p => c * ctLevel psi m x p := by
  funext p
  simp only [ctLevel]
  split_ifs <;> ring

theorem gsLevel_scale (psi : Nat → R) (m : Nat) (c : R) (x : Nat → R) :
    gsLevel psi m (fun p => c * x p) = fun p => c * gsLevel psi m x p := by
  funext p
  simp only [gsLevel]
  split_ifs <;> ring

theorem ctLevels_scale (psi : Nat → R) (s : Nat) (c : R) (x : Nat → R) :
    ctLevels psi s (fun p => c * x p) = fun p => c * ctLevels psi s x p := by
  induction s generalizing x with
  | zero => exact ctLevel_scale psi 1 c x
  | succ s inductionHypothesis =>
      rw [ctLevels, ctLevel_scale, inductionHypothesis]
      rfl

theorem ctLevel_sub (psi : Nat → R) (m : Nat) (x y : Nat → R) :
    ctLevel psi m (fun p => x p - y p) = fun p => ctLevel psi m x p - ctLevel psi m y p := by
  funext p
  simp only [ctLevel]
  split_ifs <;> ring

theorem ctLevels_sub (psi : Nat → R) (s : Nat) (x y : Nat → R) :
    ctLevels psi s (fun p => x p - y p) = fun p => ctLevels psi s x p - ctLevels psi s y p := by
  induction s generalizing x y with
  | zero => exact ctLevel_sub psi 1 x y
  | succ s inductionHypothesis =>
      rw [ctLevels, ctLevel_sub, inductionHypothesis]
      rfl

include inverse

/-- An inverse level doubles what its level has started from. -/
theorem gsLevel_ctLevel {m : Nat} (positive : 0 < m) (x : Nat → R) :
    gsLevel inv m (ctLevel psi m x) = fun p => 2 * x p := by
  funext p
  obtain ⟨b, j, inside, rfl | rfl⟩ := half_cases positive p
  · rw [gsLevel_first inv _ b positive inside, ctLevel_first psi x b positive inside,
      ctLevel_second psi x b inside]
    ring
  · rw [gsLevel_second inv _ b inside, ctLevel_first psi x b positive inside,
      ctLevel_second psi x b inside]
    linear_combination 2 * x (b * (2 * m) + m + j) * inverse b

theorem ctLevel_gsLevel {m : Nat} (positive : 0 < m) (x : Nat → R) :
    ctLevel psi m (gsLevel inv m x) = fun p => 2 * x p := by
  funext p
  obtain ⟨b, j, inside, rfl | rfl⟩ := half_cases positive p
  · rw [ctLevel_first psi _ b positive inside, gsLevel_first inv x b positive inside,
      gsLevel_second inv x b inside]
    linear_combination (x (b * (2 * m) + j) - x (b * (2 * m) + m + j)) * inverse b
  · rw [ctLevel_second psi _ b inside, gsLevel_first inv x b positive inside,
      gsLevel_second inv x b inside]
    linear_combination (x (b * (2 * m) + m + j) - x (b * (2 * m) + j)) * inverse b

theorem gsLevels_ctLevels (s : Nat) (x : Nat → R) :
    gsLevels inv s (ctLevels psi s x) = fun p => 2 ^ (s + 1) * x p := by
  induction s generalizing x with
  | zero =>
      rw [gsLevels, ctLevels, gsLevel_ctLevel inverse Nat.one_pos, zero_add, pow_one]
  | succ s inductionHypothesis =>
      rw [gsLevels, ctLevels, inductionHypothesis, gsLevel_scale,
        gsLevel_ctLevel inverse (Nat.two_pow_pos _)]
      funext p
      ring

theorem ctLevels_gsLevels (s : Nat) (x : Nat → R) :
    ctLevels psi s (gsLevels inv s x) = fun p => 2 ^ (s + 1) * x p := by
  induction s generalizing x with
  | zero =>
      rw [gsLevels, ctLevels, ctLevel_gsLevel inverse Nat.one_pos, zero_add, pow_one]
  | succ s inductionHypothesis =>
      rw [gsLevels, ctLevels, ctLevel_gsLevel inverse (Nat.two_pow_pos _), ctLevels_scale,
        inductionHypothesis]
      funext p
      ring

end Inverse

section ClosedForm

variable {h : R} {k : Nat} (half : h ^ 2 ^ k = -1)

include half

theorem whole_turn : h ^ 2 ^ (k + 1) = 1 := by
  rw [pow_succ, pow_mul, half]
  ring

/-- The twist of a level is the power of the root that its outputs need. -/
theorem twist_power {s e b c : Nat} (sum : s + 1 + e = k) (block : b < 2 ^ e) (bit : c < 2)
    {r : Nat} (inside : r < 2 ^ (s + 1)) :
    h ^ (reverse (k + 1) ((2 * b + c) * 2 ^ (s + 1) + r) * 2 ^ (s + 1)) =
      (-1) ^ c * h ^ reverse k b := by
  have wide : k + 1 = s + 1 + (e + 1) := by omega
  have parity : (2 * b + c) % 2 = c := by omega
  have rest : (2 * b + c) / 2 = b := by omega
  have short : reverse k b = reverse e b * 2 ^ (s + 1) := by
    rw [← reverse_widen e (s + 1) block, show e + (s + 1) = k by omega]
  have exponent : reverse (k + 1) ((2 * b + c) * 2 ^ (s + 1) + r) * 2 ^ (s + 1) =
      2 ^ (k + 1) * reverse (s + 1) r + (2 ^ k * c + reverse k b) := by
    have high : reverse (e + 1) (2 * b + c) = c * 2 ^ e + reverse e b := by
      rw [reverse, parity, rest]
    rw [wide, reverse_append (s + 1) (e + 1) _ inside, high, short,
      show 2 ^ k = 2 ^ e * 2 ^ (s + 1) by rw [← pow_add]; congr 1; omega]
    ring
  rw [exponent, pow_add h, pow_mul, whole_turn half, one_pow, one_mul, pow_add h, pow_mul, half]

/-- Each block of the last levels holds a transform of its own. -/
theorem ctLevels_block {s e : Nat} (sum : s + e = k) (x : Nat → R) {b r : Nat}
    (block : b < 2 ^ e) (inside : r < 2 ^ (s + 1)) :
    ctLevels (fun b => h ^ reverse k b) s x (b * 2 ^ (s + 1) + r) =
      ∑ j ∈ Finset.range (2 ^ (s + 1)),
        x (b * 2 ^ (s + 1) + j) * h ^ (reverse (k + 1) (b * 2 ^ (s + 1) + r) * j) := by
  induction s generalizing e x b r with
  | zero =>
      obtain rfl : e = k := by omega
      have wide : e + 1 = 1 + e := by omega
      rw [zero_add, pow_one] at inside ⊢
      rw [Finset.sum_range_succ, Finset.sum_range_one, Nat.mul_zero, pow_zero, mul_one,
        Nat.mul_one, Nat.add_zero, ctLevels]
      have exponent : reverse (e + 1) (b * 2 + r) = 2 ^ e * r + reverse e b := by
        rw [reverse, show (b * 2 + r) % 2 = r by omega, show (b * 2 + r) / 2 = b by omega,
          Nat.mul_comm]
      rw [exponent, pow_add, pow_mul, half]
      have first := ctLevel_first (fun b => h ^ reverse e b) x b Nat.one_pos Nat.zero_lt_one
      have second := ctLevel_second (fun b => h ^ reverse e b) x b Nat.zero_lt_one
      simp only [Nat.mul_one, Nat.add_zero] at first second
      rcases Nat.lt_succ_iff_lt_or_eq.mp inside with low | rfl
      · obtain rfl : r = 0 := by omega
        rw [Nat.add_zero, first]
        ring
      · rw [second]
        ring
  | succ s inductionHypothesis =>
      -- The block splits into two blocks of the next level.
      obtain ⟨c, r', bit, low, rfl⟩ : ∃ c r', c < 2 ∧ r' < 2 ^ (s + 1) ∧
          r = c * 2 ^ (s + 1) + r' := by
        have double : 2 ^ (s + 1 + 1) = 2 ^ (s + 1) * 2 := pow_succ 2 (s + 1)
        rw [double] at inside
        exact ⟨r / 2 ^ (s + 1), r % 2 ^ (s + 1), Nat.div_lt_of_lt_mul inside,
          Nat.mod_lt _ (Nat.two_pow_pos _), (Nat.div_add_mod' _ _).symm⟩
      have position : b * 2 ^ (s + 1 + 1) + (c * 2 ^ (s + 1) + r') =
          (2 * b + c) * 2 ^ (s + 1) + r' := by ring
      have next : 2 * b + c < 2 ^ (e + 1) := by
        rw [pow_succ]
        omega
      have start (j : Nat) : b * 2 ^ (s + 1 + 1) + j = b * (2 * 2 ^ (s + 1)) + j := by ring
      have twist := twist_power half sum block bit low
      rw [position, ctLevels, inductionHypothesis (by omega) _ next low,
        show 2 ^ (s + 1 + 1) = 2 ^ (s + 1) + 2 ^ (s + 1) by ring, Finset.sum_range_add,
        ← Finset.sum_add_distrib]
      apply Finset.sum_congr rfl
      intro j listed
      have inner := Finset.mem_range.mp listed
      have shifted : h ^ (reverse (k + 1) ((2 * b + c) * 2 ^ (s + 1) + r') * (2 ^ (s + 1) + j)) =
          (-1) ^ c * h ^ reverse k b *
            h ^ (reverse (k + 1) ((2 * b + c) * 2 ^ (s + 1) + r') * j) := by
        rw [Nat.mul_add, pow_add, twist]
      have first := ctLevel_first (fun b => h ^ reverse k b) x b (Nat.two_pow_pos (s + 1)) inner
      have second := ctLevel_second (fun b => h ^ reverse k b) x b inner
      rw [shifted, show b * (2 ^ (s + 1) + 2 ^ (s + 1)) + j = b * (2 * 2 ^ (s + 1)) + j by ring,
        show b * (2 ^ (s + 1) + 2 ^ (s + 1)) + (2 ^ (s + 1) + j) =
          b * (2 * 2 ^ (s + 1)) + 2 ^ (s + 1) + j by ring]
      rcases Nat.lt_succ_iff_lt_or_eq.mp bit with zero | rfl
      · obtain rfl : c = 0 := by omega
        rw [show (2 * b + 0) * 2 ^ (s + 1) + j = b * (2 * 2 ^ (s + 1)) + j by ring, first]
        ring
      · rw [show (2 * b + 1) * 2 ^ (s + 1) + j = b * (2 * 2 ^ (s + 1)) + 2 ^ (s + 1) + j by ring,
          second]
        ring

/-- All levels together compute the transform in reversed order. -/
theorem ctLevels_sum (x : Nat → R) {p : Nat} (inside : p < 2 ^ (k + 1)) :
    ctLevels (fun b => h ^ reverse k b) k x p =
      ∑ j ∈ Finset.range (2 ^ (k + 1)), x j * h ^ (reverse (k + 1) p * j) := by
  have block := ctLevels_block half (Nat.add_zero k) x Nat.zero_lt_one inside
  simpa only [Nat.zero_mul, Nat.zero_add] using block

end ClosedForm

section Whole

/-- These are the levels of the inverse transform below the last one. -/
def innerLevels (psi : Nat → R) : Nat → (Nat → R) → Nat → R
  | 0, x => x
  | s + 1, x => gsLevels psi s x

theorem gsLevels_inner (psi : Nat → R) (s : Nat) (x : Nat → R) :
    gsLevel psi (2 ^ s) (innerLevels psi s x) = gsLevels psi s x := by
  cases s with
  | zero => rfl
  | succ s => rfl

/-- The whole limb is one block, whose twist is one. -/
theorem whole_ctLevel {h y : Nat → R} {k : Nat} (one : h 0 = 1) {i : Nat} (inside : i < 2 * 2 ^ k) :
    ctLevel (fun _ => 1) (2 ^ k) y i = ctLevel h (2 ^ k) y i := by
  simp only [ctLevel, Nat.div_eq_of_lt inside, one]

theorem whole_gsLevel {h y : Nat → R} {k : Nat} (one : h 0 = 1) {i : Nat} (inside : i < 2 * 2 ^ k) :
    ctLevel (fun _ => 1) (2 ^ k) y i = gsLevel h (2 ^ k) y i := by
  simp only [ctLevel, gsLevel, Nat.div_eq_of_lt inside, one, one_mul, mul_one]

end Whole

section Locality

variable {x y : Nat → R} {size m : Nat}

/-- The partner of a position lies inside of the same multiple of the block. -/
theorem half_cases_inside (positive : 0 < m) (whole : 2 * m ∣ size) {p : Nat} (inside : p < size) :
    ∃ b j, j < m ∧ b * (2 * m) + m + j < size ∧
      (p = b * (2 * m) + j ∨ p = b * (2 * m) + m + j) := by
  obtain ⟨count, rfl⟩ := whole
  obtain ⟨b, j, low, place⟩ := half_cases positive p
  refine ⟨b, j, low, ?_, place⟩
  have block : b < count := by
    by_contra far
    have bound : 2 * m * count ≤ 2 * m * b := Nat.mul_le_mul_left _ (by omega)
    rw [Nat.mul_comm (2 * m) b] at bound
    omega
  have bound : 2 * m * (b + 1) ≤ 2 * m * count := Nat.mul_le_mul_left _ block
  rw [Nat.mul_succ, Nat.mul_comm (2 * m) b] at bound
  omega

/-- A level does not look past a multiple of its block. -/
theorem ctLevel_congr (psi : Nat → R) (positive : 0 < m) (whole : 2 * m ∣ size)
    (same : ∀ p < size, x p = y p) {p : Nat} (inside : p < size) :
    ctLevel psi m x p = ctLevel psi m y p := by
  obtain ⟨b, j, low, partner, place⟩ := half_cases_inside positive whole inside
  have first := same (b * (2 * m) + j) (by omega)
  have second := same _ partner
  rcases place with rfl | rfl
  · rw [ctLevel_first psi x b positive low, ctLevel_first psi y b positive low, first, second]
  · rw [ctLevel_second psi x b low, ctLevel_second psi y b low, first, second]

theorem gsLevel_congr (psi : Nat → R) (positive : 0 < m) (whole : 2 * m ∣ size)
    (same : ∀ p < size, x p = y p) {p : Nat} (inside : p < size) :
    gsLevel psi m x p = gsLevel psi m y p := by
  obtain ⟨b, j, low, partner, place⟩ := half_cases_inside positive whole inside
  have first := same (b * (2 * m) + j) (by omega)
  have second := same _ partner
  rcases place with rfl | rfl
  · rw [gsLevel_first psi x b positive low, gsLevel_first psi y b positive low, first, second]
  · rw [gsLevel_second psi x b low, gsLevel_second psi y b low, first, second]

theorem ctLevels_congr (psi : Nat → R) (s : Nat) (whole : 2 ^ (s + 1) ∣ size)
    (same : ∀ p < size, x p = y p) {p : Nat} (inside : p < size) :
    ctLevels psi s x p = ctLevels psi s y p := by
  induction s generalizing x y p with
  | zero => exact ctLevel_congr psi Nat.one_pos whole same inside
  | succ s inductionHypothesis =>
      have part : 2 ^ (s + 1) ∣ size := (pow_dvd_pow 2 (Nat.le_succ _)).trans whole
      rw [pow_succ'] at whole
      apply inductionHypothesis part _ inside
      intro position bound
      exact ctLevel_congr psi (Nat.two_pow_pos _) whole same bound

theorem gsLevels_congr (psi : Nat → R) (s : Nat) (whole : 2 ^ (s + 1) ∣ size)
    (same : ∀ p < size, x p = y p) {p : Nat} (inside : p < size) :
    gsLevels psi s x p = gsLevels psi s y p := by
  induction s generalizing x y p with
  | zero => exact gsLevel_congr psi Nat.one_pos whole same inside
  | succ s inductionHypothesis =>
      have part : 2 ^ (s + 1) ∣ size := (pow_dvd_pow 2 (Nat.le_succ _)).trans whole
      rw [pow_succ'] at whole
      apply gsLevel_congr psi (Nat.two_pow_pos _) whole _ inside
      intro position bound
      exact inductionHypothesis part same bound

end Locality

section Transform

/-- A position in reversed order holds the value at an odd power of the root. -/
def transform (w : R) (l : Nat) (x : Nat → R) (p : Nat) : R :=
  ∑ i ∈ Finset.range (2 ^ l), x i * w ^ ((2 * reverse l p + 1) * i)

/-- The flat transform scales its input and runs all levels. -/
def forward (w : R) (k : Nat) (x : Nat → R) : Nat → R :=
  ctLevels (fun b => (w ^ 2) ^ reverse k b) k fun i => x i * w ^ i

/-- The flat inverse runs all levels and scales its output. -/
def backward (v c : R) (k : Nat) (x : Nat → R) (p : Nat) : R :=
  gsLevels (fun b => (v ^ 2) ^ reverse k b) k x p * (c * v ^ p)

variable {w v c : R} {k : Nat}

theorem forward_sum (half : w ^ 2 ^ (k + 1) = -1) (x : Nat → R) {p : Nat}
    (inside : p < 2 ^ (k + 1)) : forward w k x p = transform w (k + 1) x p := by
  have turn : (w ^ 2) ^ 2 ^ k = -1 := by rw [← pow_mul, ← pow_succ', half]
  rw [forward, ctLevels_sum turn _ inside, transform]
  apply Finset.sum_congr rfl
  intro i _
  rw [mul_assoc, ← pow_mul, ← pow_add]
  congr 2
  ring

/-- The flat transform is linear. -/
theorem forward_linear (a : R) (x y : Nat → R) (p : Nat) :
    forward w k (fun i => a * (x i - y i)) p = a * (forward w k x p - forward w k y p) := by
  have twisted : (fun i => a * (x i - y i) * w ^ i) =
      fun i => a * (x i * w ^ i - y i * w ^ i) := by
    funext i
    ring
  rw [forward, twisted, ctLevels_scale, ctLevels_sub]
  rfl

/-- The transform of a ring reads the positions below its dimension. -/
theorem forward_congr {x y : Nat → R} (same : ∀ i < 2 ^ (k + 1), x i = y i) {p : Nat}
    (inside : p < 2 ^ (k + 1)) : forward w k x p = forward w k y p := by
  apply ctLevels_congr _ k (dvd_refl _) _ inside
  intro i bound
  rw [same i bound]

theorem backward_congr {x y : Nat → R} (same : ∀ i < 2 ^ (k + 1), x i = y i) {p : Nat}
    (inside : p < 2 ^ (k + 1)) : backward v c k x p = backward v c k y p := by
  rw [backward, backward, gsLevels_congr _ k (dvd_refl _) same inside]

/-- The powers of inverse roots are inverse. -/
theorem pow_inverse (inverse : v * w = 1) (e : Nat) : v ^ e * w ^ e = 1 := by
  rw [← mul_pow, inverse, one_pow]

theorem twist_inverse (inverse : v * w = 1) (e b : Nat) :
    (v ^ e) ^ reverse k b * (w ^ e) ^ reverse k b = 1 :=
  pow_inverse (pow_inverse inverse e) _

theorem backward_forward (inverse : v * w = 1) (count : c * 2 ^ (k + 1) = 1) (x : Nat → R) :
    backward v c k (forward w k x) = x := by
  funext p
  rw [backward, forward, gsLevels_ctLevels (twist_inverse inverse 2)]
  linear_combination x p * v ^ p * w ^ p * count + x p * pow_inverse inverse p

theorem forward_backward (inverse : v * w = 1) (count : c * 2 ^ (k + 1) = 1) (x : Nat → R) :
    forward w k (backward v c k x) = x := by
  have scaled : (fun i => backward v c k x i * w ^ i) =
      fun i => c * gsLevels (fun b => (v ^ 2) ^ reverse k b) k x i := by
    funext i
    rw [backward]
    linear_combination c * gsLevels (fun b => (v ^ 2) ^ reverse k b) k x i * pow_inverse inverse i
  funext p
  rw [forward, scaled, ctLevels_scale, ctLevels_gsLevels (twist_inverse inverse 2)]
  linear_combination x p * count

end Transform

section Restriction

variable {size : Nat} {f g : (Nat → R) → Nat → R}

/-- A function reads and gives the words below a size only. -/
def Local (size : Nat) (f : (Nat → R) → Nat → R) : Prop :=
  ∀ x y, (∀ i < size, x i = y i) → ∀ i < size, f x i = f y i

/-- Such a function computes with finitely many words. -/
def restricted (f : (Nat → R) → Nat → R) (held : Fin size → R) (i : Fin size) : R :=
  f (fun j => if inside : j < size then held ⟨j, inside⟩ else 0) i

theorem restricted_apply (near : Local size f) (x : Nat → R) :
    restricted f (fun i : Fin size => x i) = fun i : Fin size => f x i := by
  funext i
  apply near _ _ _ i i.isLt
  intro j inside
  rw [dif_pos inside]

/-- An inverse stays one where both functions are restricted. -/
theorem restricted_inverse (near : Local size g) (inverse : ∀ x, g (f x) = x)
    (held : Fin size → R) : restricted g (restricted f held) = held := by
  have same := restricted_apply near (f fun j => if inside : j < size then held ⟨j, inside⟩ else 0)
  rw [inverse] at same
  refine same.trans ?_
  funext i
  rw [dif_pos i.isLt]

theorem local_forward (w : R) (k : Nat) : Local (2 ^ (k + 1)) (forward w k) :=
  fun _ _ same _ inside => forward_congr same inside

theorem local_backward (v c : R) (k : Nat) : Local (2 ^ (k + 1)) (backward v c k) :=
  fun _ _ same _ inside => backward_congr same inside

end Restriction

end NegacyclicTransform

namespace NegacyclicRing

open BitReversal Polynomial

variable {R : Type*} [CommRing R]

/-- The words of a limb are the coefficients of this polynomial. -/
noncomputable def polynomial (size : Nat) (x : Nat → R) : R[X] :=
  ∑ i ∈ Finset.range size, C (x i) * X ^ i

/-- These are the coefficients of a polynomial in the ring. -/
noncomputable def reduced (size : Nat) (f : R[X]) (i : Nat) : R := (f %ₘ (X ^ size + 1)).coeff i

variable {size : Nat} {w : R}

theorem eval_polynomial (x : Nat → R) (w : R) :
    (polynomial size x).eval w = ∑ i ∈ Finset.range size, x i * w ^ i := by
  simp only [polynomial, eval_finsetSum, eval_mul, eval_C, eval_pow, eval_X]

/-- The modulus vanishes at each root of minus one. -/
theorem eval_reduced [Nontrivial R] (positive : 0 < size) (root : w ^ size = -1) (f : R[X]) :
    ∑ i ∈ Finset.range size, reduced size f i * w ^ i = f.eval w := by
  have modulus : (X ^ size + 1 : R[X]) = X ^ size + C 1 := by rw [C_1]
  have monic : (X ^ size + 1 : R[X]).Monic := modulus ▸ monic_X_pow_add_C 1 positive.ne'
  have degree : (X ^ size + 1 : R[X]).natDegree = size := modulus ▸ natDegree_X_pow_add_C
  have proper : (X ^ size + 1 : R[X]) ≠ 1 := by
    intro one
    rw [one, natDegree_one] at degree
    omega
  have small : (f %ₘ (X ^ size + 1)).natDegree < size := by
    have below := natDegree_modByMonic_lt f monic proper
    rwa [degree] at below
  have vanishes : (X ^ size + 1 : R[X]).eval w = 0 := by
    rw [eval_add, eval_pow, eval_X, eval_one, root, neg_add_cancel]
  have split := congrArg (Polynomial.eval w) (modByMonic_add_div f (X ^ size + 1))
  rw [eval_add, eval_mul, vanishes, zero_mul, add_zero] at split
  rw [← split, eval_eq_sum_range' small]
  rfl

/-- A power at a root of minus one loses a sign with each turn. -/
theorem power_turns (root : w ^ size = -1) (power : Nat) :
    w ^ power = (-1) ^ (power / size) * w ^ (power % size) := by
  have split := Nat.div_add_mod power size
  rw [← root, ← pow_mul, ← pow_add, split]

section Points

variable {k : Nat} (half : w ^ 2 ^ (k + 1) = -1)

include half

/-- Odd powers of the root are roots of minus one as well. -/
theorem odd_power (e : Nat) : (w ^ (2 * e + 1)) ^ 2 ^ (k + 1) = -1 := by
  have odd : Odd (2 * e + 1) := ⟨e, rfl⟩
  rw [← pow_mul, Nat.mul_comm, pow_mul, half, odd.neg_one_pow]

/-- The transform evaluates at the odd powers of the root in reversed order. -/
theorem forward_eval (x : Nat → R) {p : Nat} (inside : p < 2 ^ (k + 1)) :
    NegacyclicTransform.forward w k x p =
      (polynomial (2 ^ (k + 1)) x).eval (w ^ (2 * reverse (k + 1) p + 1)) := by
  rw [NegacyclicTransform.forward_sum half x inside, eval_polynomial,
    NegacyclicTransform.transform]
  apply Finset.sum_congr rfl
  intro i _
  rw [pow_mul]

theorem forward_reduced [Nontrivial R] (f : R[X]) {p : Nat} (inside : p < 2 ^ (k + 1)) :
    NegacyclicTransform.forward w k (reduced (2 ^ (k + 1)) f) p =
      f.eval (w ^ (2 * reverse (k + 1) p + 1)) := by
  rw [forward_eval half _ inside, eval_polynomial]
  exact eval_reduced (Nat.two_pow_pos _) (odd_power half _) f

/-- A product in the ring is a product at each point. -/
theorem forward_mul [Nontrivial R] (x : Nat → R) (f : R[X]) {p : Nat} (inside : p < 2 ^ (k + 1)) :
    NegacyclicTransform.forward w k
        (reduced (2 ^ (k + 1)) (polynomial (2 ^ (k + 1)) x * f)) p =
      NegacyclicTransform.forward w k x p * f.eval (w ^ (2 * reverse (k + 1) p + 1)) := by
  rw [forward_reduced half _ inside, eval_mul, ← forward_eval half x inside]

/-- A limb with one coefficient is transformed to a multiple of a power at each point. -/
theorem forward_single (c : R) {index p : Nat} (small : index < 2 ^ (k + 1))
    (inside : p < 2 ^ (k + 1)) :
    NegacyclicTransform.forward w k (fun i => if i = index then c else 0) p =
      c * (w ^ (2 * reverse (k + 1) p + 1)) ^ index := by
  have member : index ∈ Finset.range (2 ^ (k + 1)) := Finset.mem_range.mpr small
  rw [forward_eval half _ inside, eval_polynomial, Finset.sum_eq_single_of_mem index member]
  · rw [if_pos rfl]
  · intro i _ other
    rw [if_neg other, zero_mul]

/-- A substitution in the ring moves the points. -/
theorem forward_comp [Nontrivial R] (x : Nat → R) {m p q : Nat} (inside : p < 2 ^ (k + 1))
    (source : q < 2 ^ (k + 1))
    (moved : (2 * reverse (k + 1) p + 1) * m % 2 ^ (k + 2) = 2 * reverse (k + 1) q + 1) :
    NegacyclicTransform.forward w k
        (reduced (2 ^ (k + 1)) ((polynomial (2 ^ (k + 1)) x).comp (X ^ m))) p =
      NegacyclicTransform.forward w k x q := by
  have turn : w ^ 2 ^ (k + 2) = 1 := by
    rw [show k + 2 = k + 1 + 1 by omega, pow_succ 2 (k + 1), pow_mul, half, neg_one_sq]
  rw [forward_reduced half _ inside, eval_comp, eval_pow, eval_X, forward_eval half x source,
    ← pow_mul, ← moved]
  congr 1
  exact pow_eq_pow_mod _ turn

end Points

end NegacyclicRing
