/-
This file models the word reductions and proves that they are exact on their whole ranges.
-/

import Mathlib.Data.Nat.Size
import Mathlib.FieldTheory.Finite.Basic
import Fideslib.Library.WordReduction

namespace Fideslib.Modular

open WordReduction

inductive ALGO
  | native
  | shoup
  | barrett
deriving DecidableEq, Repr

/-- This is the high word of a product. -/
def umul64hi (a b : Nat) : Nat := a * b / 2 ^ 64

def modadd (a b p : Nat) : Nat :=
  let tmp0 := (a + b) % 2 ^ 64
  correct p tmp0

def modsub (a b p : Nat) : Nat :=
  let tmp0 := difference (2 ^ 64) a b
  if p ≤ tmp0 then (tmp0 + p) % 2 ^ 64 else tmp0

def shoup_precomp (val p : Nat) : Nat := (val <<< 1) % 2 ^ 64 * 2 ^ 63 / p % 2 ^ 64

def mu_new (q num_bits : Nat) : Nat := (1 <<< (2 * num_bits + 1)) / q % 2 ^ 64

def Shoup_mult_64 (op1 op2 psi prime : Nat) : Nat :=
  let c := umul64hi op1 psi
  let c_lo := difference (2 ^ 64) (op1 * op2) (c * prime)
  correct prime c_lo

def Neal_mult_64 (op1 op2 mu prime qbit : Nat) : Nat :=
  let c := op1 * op2
  let rx := (c >>> (qbit - 2)) % 2 ^ 64
  let rb := umul64hi ((rx <<< (62 - qbit)) % 2 ^ 64) mu >>> 1
  let c_lo := difference (2 ^ 64) c (rb * prime)
  correct prime c_lo

def Neal_mult_32 (op1 op2 mu prime qbit : Nat) : Nat :=
  let c := op1 * op2 % 2 ^ 64
  let rx := (c >>> (qbit - 2)) % 2 ^ 32
  let rb := ((rx <<< (30 - qbit)) % 2 ^ 32 * mu / 2 ^ 32) >>> 1
  let c_lo := difference (2 ^ 32) c (rb * prime)
  correct prime c_lo

/-- The last two arguments are the entries of the prime in the tables of the device. -/
def Shoup_reduce_128 (x p one_shoup r64_shoup : Nat) : Nat :=
  let inv64 := one_shoup
  let r64 := difference (2 ^ 64) 0 (p * inv64)
  let hi := x >>> 64 % 2 ^ 64
  let lo := x % 2 ^ 64
  let q1 := umul64hi hi r64_shoup
  let t := correct p (difference (2 ^ 64) (hi * r64) (q1 * p))
  let q2 := umul64hi lo inv64
  let u := correct p (difference (2 ^ 64) lo (q2 * p))
  let r := (t + u) % 2 ^ 64
  correct p r

def one_shoup (p : Nat) : Nat := shoup_precomp 1 p

def r64_shoup (p : Nat) : Nat := shoup_precomp (2 ^ 64 % p) p

def prime_bits (p : Nat) : Nat := p.size

def prime_better_barret_mu (p : Nat) : Nat := mu_new p (prime_bits p)

def modmult (algo : ALGO) (a b p shoup_b : Nat) : Nat :=
  match algo with
  | .native => a * b % p
  | .shoup => Shoup_mult_64 a b shoup_b p
  | .barrett => Neal_mult_64 a b (prime_better_barret_mu p) p (prime_bits p)

/-- The wide reduction of the mod-down kernels uses precomputed quotients. -/
def modreduce (x p : Nat) : Nat := Shoup_reduce_128 x p (one_shoup p) (r64_shoup p)

/-- The moduli of the library leave some bits of a word free. -/
structure Modulus (p : Nat) : Prop where
  large : 2 ≤ p
  small : p < 2 ^ 60

namespace Modulus

variable {p : Nat} (modulus : Modulus p)

include modulus

theorem pos : 0 < p := by
  have large := modulus.large
  omega

theorem wide : 2 * p ≤ 2 ^ 64 := by
  have small := modulus.small
  omega

theorem half : p < 2 ^ 63 := by
  have small := modulus.small
  omega

end Modulus

section Prepared

variable {p : Nat} (half : p < 2 ^ 63) {a b : Nat}

include half

theorem shoup_precomp_exact (right : b < p) : shoup_precomp b p = b * 2 ^ 64 / p := by
  have ratio : b * 2 ^ 64 / p < 2 ^ 64 :=
    Nat.div_lt_of_lt_mul (Nat.mul_lt_mul_of_pos_right right (Nat.two_pow_pos 64))
  have doubled : b * 2 * 2 ^ 63 = b * 2 ^ 64 := by omega
  rw [shoup_precomp, Nat.shiftLeft_eq, pow_one, Nat.mod_eq_of_lt (show b * 2 < 2 ^ 64 by omega),
    doubled, Nat.mod_eq_of_lt ratio]

theorem Shoup_mult_64_exact (word : a < 2 ^ 64) (right : b < p) :
    Shoup_mult_64 a b (shoup_precomp b p) p = a * b % p := by
  have positive : 0 < p := by omega
  obtain ⟨low, close⟩ := @ratio_estimate (2 ^ 64) p a b positive (Nat.two_pow_pos 64) word
  simp only [Shoup_mult_64, umul64hi, shoup_precomp_exact half right]
  exact correct_difference (show 2 * p ≤ 2 ^ 64 by omega) low close

omit half in
/-- The low words give the remainder where the estimate loses no digit. -/
theorem Neal_mult_64_exact (wide : 2 * p ≤ 2 ^ 64) {qbit : Nat}
    (fits : LeadingFits 64 qbit p (a * b)) :
    Neal_mult_64 a b (mu_new p qbit) p qbit = a * b % p := by
  rw [mu_new, Nat.mod_eq_of_lt fits.ratio]
  exact correct_difference wide fits.below fits.close

omit half in
theorem Neal_mult_32_exact (wide : 2 * p ≤ 2 ^ 32) {qbit : Nat} (product : a * b < 2 ^ 64)
    (fits : LeadingFits 32 qbit p (a * b)) :
    Neal_mult_32 a b (mu_new p qbit % 2 ^ 32) p qbit = a * b % p := by
  have word : 1 <<< (2 * qbit + 1) / p < 2 ^ 64 := by
    have short := fits.ratio
    omega
  rw [mu_new, Nat.mod_eq_of_lt word, Nat.mod_eq_of_lt fits.ratio, Neal_mult_32,
    Nat.mod_eq_of_lt product]
  exact correct_difference wide fits.below fits.close

/-- The wide reduction is exact for each pair of words. -/
theorem modreduce_exact (large : 2 ≤ p) {x : Nat} (wide : x < 2 ^ 128) : modreduce x p = x % p := by
  have positive : 0 < p := by omega
  have rest : 2 ^ 64 % p < p := Nat.mod_lt _ positive
  have inverse : one_shoup p = 2 ^ 64 / p := by
    rw [one_shoup, shoup_precomp_exact half large, one_mul]
  have fold : difference (2 ^ 64) 0 (p * (2 ^ 64 / p)) = 2 ^ 64 % p := by
    have split := Nat.div_add_mod (2 ^ 64) p
    have quotient : 0 < 2 ^ 64 / p := Nat.div_pos (by omega) positive
    have product : 0 < p * (2 ^ 64 / p) := Nat.mul_pos positive quotient
    unfold difference
    rcases Nat.eq_zero_or_pos (2 ^ 64 % p) with zero | nonzero
    · rw [zero] at split ⊢
      rw [show p * (2 ^ 64 / p) = 2 ^ 64 by omega]
      rfl
    · rw [Nat.mod_eq_of_lt (show p * (2 ^ 64 / p) < 2 ^ 64 by omega), Nat.mod_eq_of_lt (by omega)]
      omega
  have high_word : x >>> 64 % 2 ^ 64 = x / 2 ^ 64 := by
    rw [Nat.shiftRight_eq_div_pow, Nat.mod_eq_of_lt]
    apply Nat.div_lt_of_lt_mul
    rw [← pow_add]
    exact wide
  have first := Shoup_mult_64_exact half (show x / 2 ^ 64 < 2 ^ 64 from
    Nat.div_lt_of_lt_mul (by rw [← pow_add]; exact wide)) rest
  have second := Shoup_mult_64_exact half (Nat.mod_lt x (Nat.two_pow_pos 64)) large
  have first_small : x / 2 ^ 64 * (2 ^ 64 % p) % p < p := Nat.mod_lt _ positive
  have second_small : x % 2 ^ 64 % p < p := Nat.mod_lt _ positive
  rw [mul_one] at second
  simp only [Shoup_mult_64, mul_one] at first second
  simp only [modreduce, Shoup_reduce_128, high_word, r64_shoup]
  rw [show one_shoup p = shoup_precomp 1 p from rfl] at inverse ⊢
  rw [second, inverse, fold, first, Nat.mod_eq_of_lt (by omega), correct_eq (by omega),
    ← Nat.add_mod, ← Nat.mod_add_mod, Nat.mul_mod_mod, Nat.mod_add_mod]
  congr 1
  exact Nat.div_add_mod' x (2 ^ 64)

end Prepared

section Correctness

variable {p : Nat} (modulus : Modulus p) {a b : Nat}

include modulus

theorem modadd_eq (left : a < p) (right : b < p) : modadd a b p = (a + b) % p := by
  have small := modulus.small
  rw [modadd, Nat.mod_eq_of_lt (show a + b < 2 ^ 64 by omega), correct_eq (by omega)]

theorem modsub_eq (left : a < p) (right : b < p) : modsub a b p = (a + (p - b)) % p := by
  have small := modulus.small
  unfold modsub
  rcases Nat.lt_or_ge a b with below | above
  · have wrapped : difference (2 ^ 64) a b = 2 ^ 64 - (b - a) := by
      rw [difference, Nat.mod_eq_of_lt (show b < 2 ^ 64 by omega), Nat.mod_eq_of_lt (by omega)]
      omega
    have again : 2 ^ 64 - (b - a) + p = a + (p - b) + 2 ^ 64 := by omega
    rw [wrapped, if_pos (by omega), again, Nat.add_mod_right,
      Nat.mod_eq_of_lt (show a + (p - b) < 2 ^ 64 by omega), Nat.mod_eq_of_lt (by omega)]
  · have exactly := difference_eq above (show a - b < 2 ^ 64 by omega)
    have again : a + (p - b) = a - b + p := by omega
    rw [exactly, if_neg (by omega), again, Nat.add_mod_right, Nat.mod_eq_of_lt (by omega)]

/-- A product with a prepared operand is exact for each word. -/
theorem Shoup_mult_64_eq (word : a < 2 ^ 64) (right : b < p) :
    Shoup_mult_64 a b (shoup_precomp b p) p = a * b % p :=
  Shoup_mult_64_exact modulus.half word right

/-- The bits of a prime place it between two powers. -/
theorem prime_bits_bounds :
    2 ≤ prime_bits p ∧ prime_bits p ≤ 60 ∧ 2 ^ (prime_bits p - 1) ≤ p ∧ p < 2 ^ prime_bits p := by
  have low : 2 ^ 1 ≤ p := modulus.large
  have two : 1 < p.size := Nat.lt_size.mpr low
  have sixty : p.size ≤ 60 := Nat.size_le.mpr modulus.small
  have above : 2 ^ (p.size - 1) ≤ p := Nat.lt_size.mp (by omega)
  have below : p < 2 ^ p.size := Nat.size_le.mp le_rfl
  exact ⟨two, sixty, above, below⟩

theorem Neal_mult_64_eq (left : a < p) (right : b < p) :
    Neal_mult_64 a b (prime_better_barret_mu p) p (prime_bits p) = a * b % p := by
  obtain ⟨two, sixty, low, high⟩ := prime_bits_bounds modulus
  have fits := leadingFits two (show prime_bits p + 2 ≤ 64 by omega) low (Or.inr (by omega)) high
    (Nat.mul_lt_mul'' left right)
  exact Neal_mult_64_exact modulus.wide fits

theorem modmult_eq (algo : ALGO) (left : a < p) (right : b < p) :
    modmult algo a b p (shoup_precomp b p) = a * b % p := by
  cases algo with
  | native => rfl
  | shoup =>
      have small := modulus.small
      exact Shoup_mult_64_eq modulus (by omega) right
  | barrett => exact Neal_mult_64_eq modulus left right

theorem modreduce_eq {x : Nat} (wide : x < 2 ^ 128) : modreduce x p = x % p :=
  modreduce_exact modulus.half modulus.large wide

end Correctness

/-- Canonical words are equal where their residues are. -/
theorem word_ext {p a b : Nat} (left : a < p) (right : b < p) (same : (a : ZMod p) = b) : a = b := by
  have equal := (ZMod.natCast_eq_natCast_iff' a b p).mp same
  rwa [Nat.mod_eq_of_lt left, Nat.mod_eq_of_lt right] at equal

section Residues

variable {p : Nat} (modulus : Modulus p) {a b : Nat}

include modulus

theorem modadd_lt (left : a < p) (right : b < p) : modadd a b p < p := by
  rw [modadd_eq modulus left right]
  exact Nat.mod_lt _ modulus.pos

theorem modadd_cast (left : a < p) (right : b < p) : (modadd a b p : ZMod p) = a + b := by
  rw [modadd_eq modulus left right, ZMod.natCast_mod, Nat.cast_add]

theorem modsub_lt (left : a < p) (right : b < p) : modsub a b p < p := by
  rw [modsub_eq modulus left right]
  exact Nat.mod_lt _ modulus.pos

theorem modsub_cast (left : a < p) (right : b < p) : (modsub a b p : ZMod p) = a - b := by
  rw [modsub_eq modulus left right, ZMod.natCast_mod, Nat.cast_add, Nat.cast_sub right.le,
    ZMod.natCast_self, zero_sub, sub_eq_add_neg]

theorem modmult_lt (algo : ALGO) (left : a < p) (right : b < p) :
    modmult algo a b p (shoup_precomp b p) < p := by
  rw [modmult_eq modulus algo left right]
  exact Nat.mod_lt _ modulus.pos

theorem modmult_cast (algo : ALGO) (left : a < p) (right : b < p) :
    (modmult algo a b p (shoup_precomp b p) : ZMod p) = a * b := by
  rw [modmult_eq modulus algo left right, ZMod.natCast_mod, Nat.cast_mul]

/-- The reduction without a prepared factor reads no table of factors. -/
theorem barrett_eq (left : a < p) (right : b < p) :
    modmult .barrett a b p 0 = a * b % p := by
  rw [modmult]
  exact Neal_mult_64_eq modulus left right

theorem barrett_lt (left : a < p) (right : b < p) : modmult .barrett a b p 0 < p := by
  rw [barrett_eq modulus left right]
  exact Nat.mod_lt _ modulus.pos

theorem barrett_cast (left : a < p) (right : b < p) :
    (modmult .barrett a b p 0 : ZMod p) = a * b := by
  rw [barrett_eq modulus left right, ZMod.natCast_mod, Nat.cast_mul]

theorem modreduce_lt {x : Nat} (wide : x < 2 ^ 128) : modreduce x p < p := by
  rw [modreduce_eq modulus wide]
  exact Nat.mod_lt _ modulus.pos

theorem modreduce_cast {x : Nat} (wide : x < 2 ^ 128) : (modreduce x p : ZMod p) = x := by
  rw [modreduce_eq modulus wide, ZMod.natCast_mod]

end Residues

/-- The host squares the base while it consumes the bits of the exponent. -/
def modpowLoop (p a e r : Nat) : Nat :=
  if e = 0 then r
  else modpowLoop p (a * a % p) (e / 2) (if e % 2 = 1 then a * r % p else r)
termination_by e
decreasing_by omega

def modpow (a e p : Nat) : Nat := modpowLoop p a e 1

def modinv (a p : Nat) : Nat := modpow a (p - 2) p

theorem modpowLoop_cast (p a e r : Nat) : (modpowLoop p a e r : ZMod p) = a ^ e * r := by
  fun_induction modpowLoop p a e r with
  | case1 a r => rw [pow_zero, one_mul]
  | case2 a e r nonzero inductionHypothesis =>
      simp only [dite_eq_ite] at inductionHypothesis
      rw [inductionHypothesis, ZMod.natCast_mod, Nat.cast_mul, ← pow_two, ← pow_mul]
      have split := Nat.div_add_mod e 2
      split_ifs with odd
      · rw [ZMod.natCast_mod, Nat.cast_mul, ← mul_assoc, ← pow_succ]
        rw [odd] at split
        rw [split]
      · have even : e % 2 = 0 := by omega
        rw [even, Nat.add_zero] at split
        rw [split]

theorem modpowLoop_lt {p : Nat} (a e : Nat) {r : Nat} (small : r < p) :
    modpowLoop p a e r < p := by
  have positive : 0 < p := by omega
  fun_induction modpowLoop p a e r with
  | case1 a r => exact small
  | case2 a e r nonzero inductionHypothesis =>
      apply inductionHypothesis
      split_ifs
      · exact Nat.mod_lt _ positive
      · exact small

theorem modinv_lt {p : Nat} (large : 2 ≤ p) (a : Nat) : modinv a p < p :=
  modpowLoop_lt a _ large

/-- A power of the residue inverts it modulo a prime. -/
theorem modinv_cast {p : Nat} [Fact p.Prime] (a : Nat) (nonzero : (a : ZMod p) ≠ 0) :
    (modinv a p : ZMod p) * a = 1 := by
  have large := (Fact.out : p.Prime).two_le
  rw [modinv, modpow, modpowLoop_cast, Nat.cast_one, mul_one, ← pow_succ,
    show p - 2 + 1 = p - 1 by omega, ZMod.pow_card_sub_one_eq_one nonzero]

end Fideslib.Modular

namespace Fideslib.Modular

open WordReduction

/-- The number of bits of a modulus bounds its powers. -/
theorem two_le_bits {p b : Nat} (low : 2 ^ (b - 1) < p) (high : p < 2 ^ b) : 2 ≤ b := by
  by_contra short
  have cases : b = 0 ∨ b = 1 := by omega
  rcases cases with rfl | rfl <;> omega

/-- No step of the Barrett product loses a digit, and one correction gives the residue. -/
theorem Neal_mult_exact {p b op1 op2 : Nat} (low : 2 ^ (b - 1) < p) (high : p < 2 ^ b)
    (left : op1 < p) (right : op2 < p) :
    (b ≤ 62 →
      (2 * b + 1 < 128 ∧ op1 * op2 < 2 ^ 128 ∧ LeadingFits 64 b p (op1 * op2)) ∧
        Neal_mult_64 op1 op2 (mu_new p b) p b = op1 * op2 % p) ∧
      (b ≤ 30 →
        (op1 * op2 < 2 ^ 64 ∧ LeadingFits 32 b p (op1 * op2)) ∧
          Neal_mult_32 op1 op2 (mu_new p b % 2 ^ 32) p b = op1 * op2 % p) := by
  have two := two_le_bits low high
  have product : op1 * op2 < p * p := Nat.mul_lt_mul'' left right
  have square : p * p < 2 ^ b * 2 ^ b := Nat.mul_lt_mul'' high high
  rw [← pow_add] at square
  constructor
  · intro short
    have fits := leadingFits two (show b + 2 ≤ 64 by omega) low.le (Or.inl low) high product
    have power : 2 ^ b ≤ 2 ^ 62 := Nat.pow_le_pow_right two_pos short
    have double : 2 ^ (b + b) ≤ 2 ^ 128 := Nat.pow_le_pow_right two_pos (by omega)
    exact ⟨⟨by omega, by omega, fits⟩, Neal_mult_64_exact (by omega) fits⟩
  · intro short
    have fits := leadingFits two (show b + 2 ≤ 32 by omega) low.le (Or.inl low) high product
    have power : 2 ^ b ≤ 2 ^ 30 := Nat.pow_le_pow_right two_pos short
    have double : 2 ^ (b + b) ≤ 2 ^ 64 := Nat.pow_le_pow_right two_pos (by omega)
    have word : op1 * op2 < 2 ^ 64 := by omega
    exact ⟨⟨word, fits⟩, Neal_mult_32_exact (by omega) word fits⟩

theorem Neal_mult_exact_thirteen :
    Neal_mult_64 5 7 (mu_new 13 4) 13 4 = 5 * 7 % 13 ∧
      Neal_mult_32 5 7 (mu_new 13 4 % 2 ^ 32) 13 4 = 5 * 7 % 13 := by
  obtain ⟨wide, narrow⟩ :=
    @Neal_mult_exact 13 4 5 7 (by decide) (by decide) (by decide) (by decide)
  exact ⟨(wide (by decide)).2, (narrow (by decide)).2⟩

/-- The prepared product takes each word, and the wide reduction takes each pair of words. -/
theorem Shoup_exact {p op2 : Nat} (prime : p.Prime) (half : p < 2 ^ 63) (canonical : op2 < p) :
    (∀ op1, op1 < 2 ^ 64 →
      Shoup_mult_64 op1 op2 (shoup_precomp op2 p) p < p ∧
        (Shoup_mult_64 op1 op2 (shoup_precomp op2 p) p : ZMod p) = op1 * op2) ∧
      ∀ x, x < 2 ^ 128 →
        Shoup_reduce_128 x p (one_shoup p) (r64_shoup p) < p ∧
          (Shoup_reduce_128 x p (one_shoup p) (r64_shoup p) : ZMod p) = x := by
  constructor
  · intro op1 word
    rw [Shoup_mult_64_exact half word canonical]
    exact ⟨Nat.mod_lt _ prime.pos, by rw [ZMod.natCast_mod, Nat.cast_mul]⟩
  · intro x wide
    have reduced : Shoup_reduce_128 x p (one_shoup p) (r64_shoup p) = x % p :=
      modreduce_exact half prime.two_le wide
    rw [reduced]
    exact ⟨Nat.mod_lt _ prime.pos, by rw [ZMod.natCast_mod]⟩

theorem Shoup_exact_thirteen :
    Shoup_mult_64 (2 ^ 64 - 1) 7 (shoup_precomp 7 13) 13 < 13 ∧
      Shoup_reduce_128 (2 ^ 128 - 1) 13 (one_shoup 13) (r64_shoup 13) < 13 := by
  obtain ⟨words, pairs⟩ := @Shoup_exact 13 7 (by norm_num) (by decide) (by decide)
  exact ⟨(words (2 ^ 64 - 1) (by decide)).1, (pairs (2 ^ 128 - 1) (by decide)).1⟩

end Fideslib.Modular
