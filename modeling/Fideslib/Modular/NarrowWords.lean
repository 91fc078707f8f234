/-
This file translates the modular arithmetic of the limbs with 32-bit words.
-/

import Mathlib
import Fideslib.Modular.Words

namespace Fideslib.Modular

open WordReduction

def umulhi (a b : Nat) : Nat := a * b / 2 ^ 32

def modadd_32 (a b p : Nat) : Nat := correct p ((a + b) % 2 ^ 32)

def modsub_32 (a b p : Nat) : Nat :=
  let tmp0 := difference (2 ^ 32) a b
  if p ≤ tmp0 then (tmp0 + p) % 2 ^ 32 else tmp0

def Shoup_mult_32 (op1 op2 psi prime : Nat) : Nat :=
  let c := umulhi op1 psi
  let c_lo := difference (2 ^ 32) (op1 * op2) (c * prime)
  correct prime c_lo

def Neal_reduce_32 (c mu prime qbit : Nat) : Nat :=
  let rx := (c >>> (qbit - 2)) % 2 ^ 32
  let rb := umulhi ((rx <<< (30 - qbit)) % 2 ^ 32) mu >>> 1
  let c_lo := difference (2 ^ 32) c (rb * prime)
  correct prime c_lo

/-- The prepared constant and the Barrett constant lose their high words at the call. -/
def modmult_32 (algo : ALGO) (a b p shoup_b : Nat) : Nat :=
  match algo with
  | .native => a * b % p
  | .shoup => Shoup_mult_32 a b (shoup_b % 2 ^ 32) p
  | .barrett => Neal_mult_32 a b (prime_better_barret_mu p % 2 ^ 32) p (prime_bits p)

/-- The reduction of a double word to a narrow word. -/
def modreduce_32 (a p : Nat) : Nat :=
  Neal_reduce_32 a (prime_better_barret_mu p % 2 ^ 32) p (prime_bits p)

/-- The primes of the narrow limbs are odd and have at most 30 bits. -/
structure NarrowModulus (p : Nat) : Prop where
  large : 3 ≤ p
  small : p < 2 ^ 30
  odd : p % 2 = 1

namespace NarrowModulus

variable {p : Nat} (narrow : NarrowModulus p)

include narrow

theorem pos : 0 < p := by
  have large := narrow.large
  omega

theorem half : p < 2 ^ 63 := by
  have small := narrow.small
  omega

theorem modulus : Modulus p where
  large := by
    have large := narrow.large
    omega
  small := by
    have small := narrow.small
    omega

/-- A multiple of the prime that wraps to zero has a factor that wraps. -/
theorem factor_wraps {x y : Nat} (same : Nat.ModEq (2 ^ 32) (x * p) (y * p)) :
    Nat.ModEq (2 ^ 32) x y := by
  have coprime : Nat.gcd (2 ^ 32) p = 1 := by
    apply Nat.Coprime.pow_left
    rw [Nat.coprime_two_left, Nat.odd_iff]
    exact narrow.odd
  exact Nat.ModEq.cancel_right_of_coprime coprime same

/-- Two small multiples of the prime that wrap to one word are equal. -/
theorem factor_eq {x y : Nat} (left : x < 2 ^ 32) (right : y < 2 ^ 32)
    (same : Nat.ModEq (2 ^ 32) (x * p) (y * p)) : x = y :=
  Nat.ModEq.eq_of_lt_of_lt (narrow.factor_wraps same) left right

end NarrowModulus

section Prepared

variable {p : Nat}

/-- The kernels read the low half of the prepared constant. -/
theorem shoup_precomp_low (half : p < 2 ^ 63) {b : Nat} (right : b < p) :
    shoup_precomp b p % 2 ^ 32 = b * 2 ^ 32 % p * 2 ^ 32 / p := by
  have positive : 0 < p := by omega
  have square : b * 2 ^ 64 = b * (2 ^ 32 * 2 ^ 32) := by norm_num
  rw [shoup_precomp_exact half right, square]
  exact double_ratio_low b positive (Nat.two_pow_pos 32)

/-- The low half is the narrow constant where the word is one modulo the prime. -/
theorem Shoup_mult_32_exact (narrow : NarrowModulus p) (one : 2 ^ 32 % p = 1) {a b : Nat}
    (word : a < 2 ^ 32) (right : b < p) :
    modmult_32 .shoup a b p (shoup_precomp b p) = a * b % p := by
  have small := narrow.small
  have fixed : b * 2 ^ 32 % p = b := by
    rw [Nat.mul_mod, one, Nat.mul_one, Nat.mod_mod, Nat.mod_eq_of_lt right]
  obtain ⟨low, close⟩ := @ratio_estimate (2 ^ 32) p a b narrow.pos (Nat.two_pow_pos 32) word
  rw [modmult_32, shoup_precomp_low narrow.half right, fixed]
  exact correct_difference (show 2 * p ≤ 2 ^ 32 by omega) low close

/-- The Barrett product of two residues is exact. -/
theorem modmult_32_barrett (narrow : NarrowModulus p) {a b : Nat} (left : a < p) (right : b < p) :
    modmult_32 .barrett a b p 0 = a * b % p := by
  have small := narrow.small
  have large := narrow.large
  have low : 2 ^ (p.size - 1) < p := by
    have reach : 2 ^ (p.size - 1) ≤ p := Nat.lt_size.mp (by
      have positive : 0 < p.size := Nat.size_pos.mpr narrow.pos
      omega)
    rcases Nat.eq_or_lt_of_le reach with equal | below
    · exfalso
      have odd := narrow.odd
      have long : 2 ≤ p.size := Nat.lt_size.mpr (by omega)
      have even : 2 ^ (p.size - 1) % 2 = 0 := by
        rw [show p.size - 1 = (p.size - 2) + 1 by omega, pow_succ, Nat.mul_mod_left]
      omega
    · exact below
  have short : p.size ≤ 30 := Nat.size_le.mpr small
  exact ((Neal_mult_exact low (Nat.lt_size_self p) left right).2 short).2

end Prepared

section Reduction

variable {p : Nat}

/-- This is the low half of the constant that the kernels reduce with. -/
def lowRatio (p : Nat) : Nat := 2 ^ 32 % p * 2 ^ 32 / p

/-- This is the quotient that the narrow reduction estimates. -/
def lowQuotient (p y : Nat) : Nat := umulhi y (lowRatio p)

/-- The narrow reduction of one word by the prepared one. -/
def reduce_32 (p y : Nat) : Nat := modmult_32 .shoup y 1 p (one_shoup p)

/-- The narrow reduction subtracts its quotient or one more modulus. -/
theorem reduce_32_subtracts (narrow : NarrowModulus p) (y : Nat) :
    ∃ subtracted, lowQuotient p y ≤ subtracted ∧ subtracted ≤ lowQuotient p y + 1 ∧
      Nat.ModEq (2 ^ 32) (reduce_32 p y + subtracted * p) y := by
  have large := narrow.large
  have reads : reduce_32 p y = correct p (difference (2 ^ 32) y (lowQuotient p y * p)) := by
    rw [reduce_32, modmult_32, one_shoup, shoup_precomp_low narrow.half (by omega), one_mul,
      Shoup_mult_32, mul_one]
    rfl
  rw [reads]
  exact correct_difference_quotient y (lowQuotient p y) (Nat.two_pow_pos 32)

theorem reduce_32_exact (narrow : NarrowModulus p) (one : 2 ^ 32 % p = 1) {y : Nat}
    (word : y < 2 ^ 32) : reduce_32 p y = y % p := by
  have large := narrow.large
  have product := Shoup_mult_32_exact narrow one word (show 1 < p by omega)
  rwa [Nat.mul_one] at product

/-- The low ratio is the residue of the word scaled by the modulus. -/
theorem lowRatio_mul (narrow : NarrowModulus p) :
    lowRatio p * p ≤ 2 ^ 32 % p * 2 ^ 32 ∧ 2 ^ 32 % p * 2 ^ 32 < lowRatio p * p + p := by
  have split := Nat.div_add_mod (2 ^ 32 % p * 2 ^ 32) p
  have rest := Nat.mod_lt (2 ^ 32 % p * 2 ^ 32) narrow.pos
  rw [Nat.mul_comm] at split
  unfold lowRatio
  omega

theorem lowRatio_lt (narrow : NarrowModulus p) : lowRatio p < 2 ^ 32 :=
  Nat.div_lt_of_lt_mul
    (Nat.mul_lt_mul_of_pos_right (Nat.mod_lt _ narrow.pos) (Nat.two_pow_pos 32))

theorem lowQuotient_mul (p y : Nat) :
    lowQuotient p y * 2 ^ 32 ≤ y * lowRatio p ∧
      y * lowRatio p < lowQuotient p y * 2 ^ 32 + 2 ^ 32 := by
  have split := Nat.div_add_mod (y * lowRatio p) (2 ^ 32)
  have rest := Nat.mod_lt (y * lowRatio p) (Nat.two_pow_pos 32)
  unfold lowQuotient umulhi
  omega

theorem lowQuotient_le (narrow : NarrowModulus p) (y : Nat) : lowQuotient p y ≤ y := by
  have scaled := (lowQuotient_mul p y).1
  have small := Nat.mul_le_mul_left y (lowRatio_lt narrow).le
  exact Nat.le_of_mul_le_mul_right (scaled.trans small) (Nat.two_pow_pos 32)

/-- No prime of a narrow limb divides two less than a word. -/
theorem word_residue_ne_two (prime : p.Prime) (narrow : NarrowModulus p) : 2 ^ 32 % p ≠ 2 := by
  intro two
  have mersenne_prime : (mersenne 31).Prime :=
    lucas_lehmer_sufficiency 31 (by norm_num) (by norm_num)
  have multiple : p ∣ 2 ^ 32 - 2 := (Nat.modEq_iff_dvd' (by norm_num)).mp (by
    have small : 2 % p = 2 := Nat.mod_eq_of_lt narrow.large
    rw [Nat.ModEq, two, small])
  have factors : 2 ^ 32 - 2 = 2 * mersenne 31 := by norm_num [mersenne]
  rw [factors] at multiple
  rcases prime.dvd_mul.mp multiple with even | odd
  · have bound := Nat.le_of_dvd (by omega) even
    have large := narrow.large
    omega
  · have same := (Nat.prime_dvd_prime_iff_eq prime mersenne_prime).mp odd
    have small := narrow.small
    norm_num [mersenne] at same
    omega

/-- The residue of a word is three or more unless it is one. -/
theorem three_le_word_residue (prime : p.Prime) (narrow : NarrowModulus p)
    (other : 2 ^ 32 % p ≠ 1) : 3 ≤ 2 ^ 32 % p := by
  have two := word_residue_ne_two prime narrow
  have zero : 2 ^ 32 % p ≠ 0 := by
    intro none
    have divides := prime.dvd_of_dvd_pow (Nat.dvd_of_mod_eq_zero none)
    have bound := Nat.le_of_dvd (by omega) divides
    have large := narrow.large
    omega
  omega

end Reduction

/-- The narrow switch from one modulus to another one. -/
def SwitchModulus_32 (om nm a : Nat) : Nat :=
  let halfQ := om >>> 1
  if nm > om then
    let diff := nm - om
    if a > halfQ then (a + diff) % 2 ^ 32 else a
  else
    let diff := difference (2 ^ 32) nm (modmult_32 .shoup om 1 nm (one_shoup nm))
    let a := if a > halfQ then (a + diff) % 2 ^ 32 else a
    if a ≥ nm then modmult_32 .shoup a 1 nm (one_shoup nm) else a

section Wrong

variable {p : Nat} (prime : p.Prime) (narrow : NarrowModulus p) (other : 2 ^ 32 % p ≠ 1)

include prime narrow other

/-- From the modulus on, the estimated quotient is at least two. -/
theorem two_le_lowQuotient {y : Nat} (large : p ≤ y) : 2 ≤ lowQuotient p y := by
  have three := three_le_word_residue prime narrow other
  have ratio := (lowRatio_mul narrow).2
  have bound := (lowQuotient_mul p y).2
  have small := narrow.small
  have grows : lowRatio p * p ≤ y * lowRatio p := by
    rw [Nat.mul_comm y]
    exact Nat.mul_le_mul_left _ large
  omega

/-- The narrow reduction does not send the modulus to zero. -/
theorem reduce_32_self : reduce_32 p p ≠ 0 := by
  intro zero
  obtain ⟨subtracted, low, high, sum⟩ := reduce_32_subtracts narrow p
  have two := two_le_lowQuotient prime narrow other (le_refl p)
  have top := lowQuotient_le narrow p
  have small := narrow.small
  rw [zero, Nat.zero_add] at sum
  have one := narrow.factor_eq (show subtracted < 2 ^ 32 by omega) (show 1 < 2 ^ 32 by norm_num)
    (by rwa [Nat.one_mul])
  omega

/-- The narrow reduction changes the largest residue. -/
theorem reduce_32_pred : reduce_32 p (p - 1) ≠ p - 1 := by
  intro same
  obtain ⟨subtracted, low, high, sum⟩ := reduce_32_subtracts narrow (p - 1)
  have three := three_le_word_residue prime narrow other
  have top := lowQuotient_le narrow (p - 1)
  have small := narrow.small
  have large := narrow.large
  have ratio := (lowRatio_mul narrow).2
  have below := lowRatio_lt narrow
  have bound := (lowQuotient_mul p (p - 1)).2
  have apart : (p - 1) * lowRatio p + lowRatio p = lowRatio p * p := by
    rw [← Nat.succ_mul, Nat.succ_eq_add_one, Nat.sub_add_cancel narrow.pos, Nat.mul_comm]
  rw [same] at sum
  have none : Nat.ModEq (2 ^ 32) (subtracted * p) (0 * p) := by
    rw [Nat.zero_mul]
    exact Nat.ModEq.add_left_cancel' (p - 1) sum
  have zero := narrow.factor_eq (show subtracted < 2 ^ 32 by omega) (by norm_num) none
  omega

omit prime other in
/-- The switch of the upper half adds its difference and subtracts a multiple of the modulus. -/
theorem SwitchModulus_32_subtracts {q a : Nat} (wider : p ≤ q) (upper : q / 2 < a) :
    ∃ y subtracted,
      y = (a + difference (2 ^ 32) p (reduce_32 p q)) % 2 ^ 32 ∧
      Nat.ModEq (2 ^ 32) (SwitchModulus_32 q p a + subtracted * p) y ∧
      (p ≤ y → lowQuotient p y ≤ subtracted) ∧ (y < p → subtracted = 0) ∧
      subtracted ≤ lowQuotient p y + 1 := by
  set y := (a + difference (2 ^ 32) p (reduce_32 p q)) % 2 ^ 32 with y_def
  have half : q >>> 1 = q / 2 := by rw [Nat.shiftRight_eq_div_pow, pow_one]
  have reads : SwitchModulus_32 q p a = if y ≥ p then reduce_32 p y else y := by
    simp only [SwitchModulus_32, half, gt_iff_lt, if_neg (show ¬ q < p by omega), if_pos upper]
    rfl
  by_cases large : p ≤ y
  · obtain ⟨subtracted, low, high, sum⟩ := reduce_32_subtracts narrow y
    rw [reads, if_pos large]
    exact ⟨y, subtracted, rfl, sum, fun _ => low, fun small => by omega, high⟩
  · rw [reads, if_neg large]
    refine ⟨y, 0, rfl, ?_, fun more => absurd more large, fun _ => rfl, by omega⟩
    rw [Nat.zero_mul, Nat.add_zero]

/-- A right value in the upper half fixes the multiple that the switch subtracts. -/
theorem SwitchModulus_32_quotient {q a total : Nat} (wider : p ≤ q) (short : q < 2 ^ 30)
    (upper : q / 2 < a) (right : SwitchModulus_32 q p a + q = a + p)
    (low : lowQuotient p q ≤ total) (high : total ≤ lowQuotient p q + 1)
    (sum : Nat.ModEq (2 ^ 32) (reduce_32 p q + total * p) q) :
    ∃ y, y = (a + difference (2 ^ 32) p (reduce_32 p q)) % 2 ^ 32 ∧ p ≤ y ∧
      lowQuotient p y ≤ total ∧ total ≤ lowQuotient p y + 1 := by
  obtain ⟨y, subtracted, y_def, switched, atLeast, below, atMost⟩ :=
    SwitchModulus_32_subtracts narrow wider upper
  have word : y < 2 ^ 32 := by
    rw [y_def]
    exact Nat.mod_lt _ (Nat.two_pow_pos 32)
  have undone := difference_add (2 ^ 32) p (reduce_32 p q) (Nat.two_pow_pos 32)
  have reads : Nat.ModEq (2 ^ 32) y (a + difference (2 ^ 32) p (reduce_32 p q)) := by
    rw [y_def]
    exact Nat.mod_modEq _ _
  have same : Nat.ModEq (2 ^ 32) (subtracted * p) (total * p) := by
    rw [← ZMod.natCast_eq_natCast_iff] at switched sum undone reads ⊢
    have value := congrArg (Nat.cast : Nat → ZMod (2 ^ 32)) right
    push_cast at switched sum undone reads value ⊢
    linear_combination switched - sum + undone + reads - value
  have quotientSmall := lowQuotient_le narrow q
  have quotientLow := lowQuotient_le narrow y
  have two := two_le_lowQuotient prime narrow other wider
  have positive := narrow.large
  have reach : subtracted < 2 ^ 32 := by
    by_cases large : p ≤ y
    · have bound := (lowQuotient_mul p y).1
      have ratio := lowRatio_lt narrow
      have strict : y * lowRatio p ≤ y * (2 ^ 32 - 1) := Nat.mul_le_mul_left _ (by omega)
      have less : lowQuotient p y < y := by omega
      omega
    · have none := below (by omega)
      omega
  have equal := narrow.factor_eq reach (show total < 2 ^ 32 by omega) same
  have large : p ≤ y := by
    by_contra small
    have none := below (by omega)
    omega
  subst equal
  exact ⟨y, y_def, large, atLeast large, atMost⟩

omit prime other in
/-- Two words of a long enough range never have one quotient. -/
theorem lowQuotient_range (five : 5 ≤ 2 ^ 32 % p) {y range : Nat} (long : p ≤ 2 * range + 1) :
    lowQuotient p y + 2 ≤ lowQuotient p (y + range) := by
  have residue : 2 ^ 32 % p < p := Nat.mod_lt _ narrow.pos
  have small := narrow.small
  have odd := narrow.odd
  have ratio := (lowRatio_mul narrow).2
  have word := lowRatio_lt narrow
  have low := (lowQuotient_mul p y).1
  have high := (lowQuotient_mul p (y + range)).2
  have split : (y + range) * lowRatio p = y * lowRatio p + range * lowRatio p := Nat.add_mul _ _ _
  have double : lowRatio p * p ≤ 2 * (range * lowRatio p) + lowRatio p := by
    calc lowRatio p * p ≤ lowRatio p * (2 * range + 1) := Nat.mul_le_mul_left _ long
      _ = 2 * (range * lowRatio p) + lowRatio p := by ring
  have seven : lowRatio p * 7 ≤ lowRatio p * p := Nat.mul_le_mul_left _ (by omega)
  omega

/-- The primes with a smaller residue leave room for ten multiples in a word. -/
theorem few_multiples (four : 2 ^ 32 % p ≤ 4) : 10 * p < 2 ^ 32 := by
  have three := three_le_word_residue prime narrow other
  have large := narrow.large
  have residue : 2 ^ 32 % p < p := Nat.mod_lt _ narrow.pos
  have multiple : p ∣ 2 ^ 32 - 2 ^ 32 % p := Nat.dvd_sub_mod _
  have cases : 2 ^ 32 % p = 3 ∨ 2 ^ 32 % p = 4 := by omega
  rcases cases with rest | rest
  · have factors : 2 ^ 32 - 3 = 9241 * 464773 := by norm_num
    rw [rest, factors] at multiple
    rcases prime.dvd_mul.mp multiple with divides | divides <;>
      · have bound := Nat.le_of_dvd (by norm_num) divides
        omega
  · have factors : 2 ^ 32 - 4 = 4 * (32767 * 32769) := by norm_num
    rw [rest, factors] at multiple
    rcases prime.dvd_mul.mp multiple with divides | divides
    · have bound := Nat.le_of_dvd (by norm_num) divides
      omega
    · rcases prime.dvd_mul.mp divides with divides | divides <;>
        · have bound := Nat.le_of_dvd (by norm_num) divides
          omega

/-- Between the modulus and its double, the narrow switch fails at one end of the upper half. -/
theorem SwitchModulus_32_near {q : Nat} (wider : p < q) (double : q < 2 * p) (oddSource : q % 2 = 1)
    (short : q < 2 ^ 30) :
    SwitchModulus_32 q p (q - 1) + q ≠ q - 1 + p ∨
      SwitchModulus_32 q p (q / 2 + 1) + q ≠ q / 2 + 1 + p := by
  by_contra both
  push Not at both
  obtain ⟨top, bottom⟩ := both
  have odd := narrow.odd
  have large := narrow.large
  obtain ⟨total, low, high, sum⟩ := reduce_32_subtracts narrow q
  obtain ⟨last, last_def, last_large, last_low, last_high⟩ := SwitchModulus_32_quotient prime
    narrow other wider.le short (show q / 2 < q - 1 by omega) top low high sum
  obtain ⟨first, first_def, first_large, first_low, first_high⟩ := SwitchModulus_32_quotient prime
    narrow other wider.le short (show q / 2 < q / 2 + 1 by omega) bottom low high sum
  set diff := difference (2 ^ 32) p (reduce_32 p q) with diff_def
  have diffWord : diff < 2 ^ 32 := Nat.mod_lt _ (Nat.two_pow_pos 32)
  have apart : last = first + (q / 2 - 1) := by omega
  rcases Nat.lt_or_ge 4 (2 ^ 32 % p) with many | few
  · have grows := lowQuotient_range narrow (y := first) many (show p ≤ 2 * (q / 2 - 1) + 1 by omega)
    rw [← apart] at grows
    omega
  · -- Here the last word is a small multiple of the modulus less one, so its quotient is known.
    have room := few_multiples prime narrow other few
    have ratio := lowRatio_mul narrow
    have three := three_le_word_residue prime narrow other
    have word := lowRatio_lt narrow
    have unscaled : 3 * 2 ^ 32 ≤ lowRatio p * p + p := by omega
    have quotient := (lowQuotient_mul p q).1
    have lastQuotient := (lowQuotient_mul p last).2
    have least : q * lowRatio p ≤ 2 * (lowRatio p * p) := by
      calc q * lowRatio p ≤ 2 * p * lowRatio p := Nat.mul_le_mul_right _ double.le
        _ = 2 * (lowRatio p * p) := by ring
    have totalSmall : total ≤ 9 := by omega
    have multiple : (total + 1) * p ≤ 10 * p := Nat.mul_le_mul_right _ (by omega)
    have undone := difference_add (2 ^ 32) p (reduce_32 p q) (Nat.two_pow_pos 32)
    have place : Nat.ModEq (2 ^ 32) (last + 1) ((total + 1) * p) := by
      have reads : Nat.ModEq (2 ^ 32) (last + 1) (q + diff) := by
        have shifted : Nat.ModEq (2 ^ 32) last (q - 1 + diff) := by
          rw [last_def]
          exact Nat.mod_modEq _ _
        have next := shifted.add_right 1
        rwa [show q - 1 + diff + 1 = q + diff by omega] at next
      rw [← diff_def] at undone
      rw [← ZMod.natCast_eq_natCast_iff] at reads undone sum ⊢
      push_cast at reads undone sum ⊢
      linear_combination reads + undone - sum
    have exact_place : last + 1 = (total + 1) * p := by
      have lastWord : last < 2 ^ 32 := by
        rw [last_def]
        exact Nat.mod_lt _ (Nat.two_pow_pos 32)
      have positive : 0 < (total + 1) * p := Nat.mul_pos (by omega) narrow.pos
      unfold Nat.ModEq at place
      omega
    have scaled : (last + 1) * lowRatio p = (total + 1) * (lowRatio p * p) := by
      rw [exact_place]
      ring
    have reach := Nat.mul_le_mul_left (total + 1) unscaled
    rw [Nat.mul_add] at reach
    rw [Nat.succ_mul] at scaled
    omega

end Wrong

end Fideslib.Modular
