/-
This file proves what the kernels find in the constants and in the tables of a prime.
-/

import Fideslib.Kernels.Butterflies
import Fideslib.Twiddles.Contract

namespace Fideslib.Twiddles

open Fideslib.Modular Butterflies NegacyclicTransform
open BitReversal (reverse)

section Tables

variable {p logN k : Nat} {words : Table → Nat → Nat} {table table_shoup : Table}

/-- A table of a prime holds the powers of a root in reversed order, with their quotients. -/
structure Powers (p logN : Nat) (root : ZMod p) (table table_shoup : Table)
    (words : Table → Nat → Nat) : Prop where
  small : ∀ i < 2 ^ logN, words table i < p
  value : ∀ i < 2 ^ logN, (words table i : ZMod p) = root ^ reverse logN i
  quotient : ∀ i < 2 ^ logN, words table_shoup i = shoup_precomp (words table i) p

/-- The root of a shorter limb is a power of the root of the ring. -/
def shortRoot {R : Type} [Monoid R] (root : R) (logN k : Nat) : R := root ^ 2 ^ (logN - (k + 1))

variable {root : ZMod p}

/-- The first entries of the table serve each shorter limb. -/
theorem Powers.twist (powers : Powers p logN root table table_shoup words) (short : k + 1 ≤ logN)
    {i : Nat} (inside : i < 2 ^ k) :
    (words table i : ZMod p) = (shortRoot root logN k ^ 2) ^ reverse k i := by
  have below : i < 2 ^ logN := inside.trans (Nat.pow_lt_pow_right one_lt_two (by omega))
  have wide : logN = k + (logN - (k + 1) + 1) := by omega
  have exponent : reverse logN i = 2 ^ (logN - (k + 1)) * 2 * reverse k i := by
    conv_lhs => rw [wide, BitReversal.reverse_widen k _ inside]
    rw [pow_succ, Nat.mul_comm]
  rw [powers.value i below, exponent, shortRoot, ← pow_mul, ← pow_mul, Nat.mul_assoc]

theorem Powers.half (powers : Powers p logN root table table_shoup words) (short : k + 1 ≤ logN) :
    (words table (1 <<< (k + 1 - 1)) : ZMod p) = shortRoot root logN k := by
  have below : 2 ^ k < 2 ^ logN := Nat.pow_lt_pow_right one_lt_two (by omega)
  have wide : logN = k + (logN - (k + 1) + 1) := by omega
  have exponent : reverse logN (2 ^ k) = 2 ^ (logN - (k + 1)) := by
    have shift := BitReversal.reverse_shift k (logN - (k + 1) + 1) 1
    rw [Nat.one_mul] at shift
    conv_lhs => rw [wide, shift]
    rw [reverse, BitReversal.reverse_zero, Nat.add_zero, Nat.one_mod, Nat.one_mul]
  rw [Nat.shiftLeft_eq, Nat.one_mul, Nat.add_sub_cancel, powers.value _ below, exponent, shortRoot]

theorem half_below (short : k + 1 ≤ logN) : 1 <<< (k + 1 - 1) < 2 ^ logN := by
  rw [Nat.shiftLeft_eq, Nat.one_mul, Nat.add_sub_cancel]
  exact Nat.pow_lt_pow_right one_lt_two (by omega)

end Tables

section Counts

/-- The inverse of a shorter length comes from the inverse of the dimension. -/
def shortCount (constants : Constants) (k : Nat) : ZMod constants.p :=
  ((2 ^ (constants.logN - (k + 1)) * constants.N_inv : Nat) : ZMod constants.p)

theorem shortCount_inverse (right : constants.Right) (short : k + 1 ≤ constants.logN) :
    shortCount constants k * 2 ^ (k + 1) = 1 := by
  have total : (2 : ZMod constants.p) ^ (constants.logN - (k + 1)) * 2 ^ (k + 1) =
      2 ^ constants.logN := by
    rw [← pow_add, Nat.sub_add_cancel short]
  rw [shortCount, Nat.cast_mul, Nat.cast_pow, Nat.cast_ofNat, mul_right_comm, total, mul_comm,
    right.value]

end Counts

section Setup

variable {q logN k fuel root : Nat} {raw : Option Nat} {tables : Tables}
  {words : Table → Nat → Nat}

/-- The device holds all entries of the tables of a prime. -/
def HasTables (tables : Tables) (logN : Nat) (words : Table → Nat → Nat) : Prop :=
  ∀ table, ∀ i < capacity (2 ^ logN) table, ∀ word, tables.read table i = .ok word →
    words table i = word

/-- The setup computes these constants for a prime. -/
def setupConstants (q logN : Nat) : Constants where
  p := q
  logN := logN
  N := 2 ^ logN
  N_shoup := shoup_precomp (2 ^ logN) q
  N_inv := modinv (2 ^ logN) q
  N_inv_shoup := shoup_precomp (modinv (2 ^ logN) q) q

theorem odd_of_congruent (congruent : q % 2 ^ (logN + 1) = 1) : q ≠ 2 := by
  rintro rfl
  rw [pow_succ] at congruent
  have positive := Nat.two_pow_pos logN
  rcases Nat.lt_or_ge (2 ^ logN * 2) 3 with two | more
  · rw [show 2 ^ logN * 2 = 2 by omega] at congruent
    omega
  · rw [Nat.mod_eq_of_lt (by omega)] at congruent
    omega

theorem wide_of_congruent (prime : q.Prime) (congruent : q % 2 ^ (logN + 1) = 1) :
    2 ^ logN < q := by
  by_contra small
  have large := prime.two_le
  rw [pow_succ, Nat.mod_eq_of_lt (by omega)] at congruent
  omega

variable (prime : q.Prime) (congruent : q % 2 ^ (logN + 1) = 1)

include prime congruent

theorem setupConstants_right : (setupConstants q logN).Right := by
  have isPrime : Fact q.Prime := ⟨prime⟩
  have two : ((2 ^ logN : Nat) : ZMod q) ≠ 0 := by
    rw [Ne, ZMod.natCast_eq_zero_iff]
    intro divides
    exact odd_of_congruent congruent
      ((Nat.prime_dvd_prime_iff_eq prime Nat.prime_two).mp (prime.dvd_of_dvd_pow divides))
  have value := modinv_cast (2 ^ logN) two
  rw [Nat.cast_pow, Nat.cast_ofNat] at value
  exact ⟨rfl, rfl, modinv_lt prime.two_le _, value, rfl, wide_of_congruent prime congruent⟩

omit prime congruent in
/-- Wide limbs need no narrow prime. -/
theorem not_narrow : Registry.LimbType.U64 = .U32 → q < 2 ^ 32 := by
  intro same
  cases same

variable (int : logN < 31)
  (built : setup (2 ^ logN) q .U64 fuel raw = some (.ok (root, tables)))

include int built

theorem half_of_setup : (root : ZMod q) ^ 2 ^ logN = -1 :=
  (setup_filled prime (odd_of_congruent congruent) int not_narrow built).1

theorem inverse_of_setup : ((modinv root q : Nat) : ZMod q) * root = 1 :=
  (inverse_root prime (half_of_setup prime congruent int built)).1

/-- The tables of the setup hold the powers of the root and of its inverse. -/
theorem powers_of_setup (has : HasTables tables logN words) :
    Powers q logN (root : ZMod q) .psi .psi_shoup words ∧
      Powers q logN ((modinv root q : Nat) : ZMod q) .inv_psi .inv_psi_shoup words := by
  obtain ⟨-, right, prepared⟩ := setup_filled prime (odd_of_congruent congruent) int
    not_narrow built
  have power (i : Nat) (below : i < 2 ^ logN) := has .psi i below _ (right.psi i below)
  have inverse (i : Nat) (below : i < 2 ^ logN) := has .inv_psi i below _ (prepared.inv_psi i below)
  refine ⟨⟨fun i below => ?_, fun i below => ?_, fun i below => ?_⟩,
    fun i below => ?_, fun i below => ?_, fun i below => ?_⟩
  · rw [power i below]
    exact Nat.mod_lt _ prime.pos
  · rw [power i below, ZMod.natCast_mod, Nat.cast_pow]
  · rw [power i below, has .psi_shoup i below _ (prepared.psi_shoup i below)]
    rfl
  · rw [inverse i below]
    exact Nat.mod_lt _ prime.pos
  · rw [inverse i below, ZMod.natCast_mod, Nat.cast_pow]
  · rw [inverse i below, has .inv_psi_shoup i below _ (prepared.inv_psi_shoup i below)]
    rfl

/-- The root of a shorter limb has minus one at its length. -/
theorem shortRoot_half (short : k + 1 ≤ logN) :
    shortRoot (root : ZMod q) logN k ^ 2 ^ (k + 1) = -1 := by
  rw [shortRoot, ← pow_mul, ← pow_add, Nat.sub_add_cancel short]
  exact half_of_setup prime congruent int built

theorem shortRoot_inverse : shortRoot ((modinv root q : Nat) : ZMod q) logN k *
    shortRoot (root : ZMod q) logN k = 1 := by
  rw [shortRoot, shortRoot, ← mul_pow, inverse_of_setup prime congruent int built, one_pow]

/-- The setup computes this inverse of the length of a limb. -/
def setupCount (q logN k : Nat) : ZMod q := shortCount (setupConstants q logN) k

omit int built in
theorem setupCount_inverse (short : k + 1 ≤ logN) :
    setupCount q logN k * 2 ^ (k + 1) = (1 : ZMod q) :=
  shortCount_inverse (setupConstants_right prime congruent) short

/-- The inverse transform of a limb undoes its transform. -/
theorem backward_turned (short : k + 1 ≤ logN) (x : Nat → ZMod q) :
    backward (shortRoot ((modinv root q : Nat) : ZMod q) logN k) (setupCount q logN k) k
      (forward (shortRoot (root : ZMod q) logN k) k x) = x :=
  backward_forward (shortRoot_inverse prime congruent int built)
    (setupCount_inverse prime congruent short) x

theorem forward_turned (short : k + 1 ≤ logN) (x : Nat → ZMod q) :
    forward (shortRoot (root : ZMod q) logN k) k
      (backward (shortRoot ((modinv root q : Nat) : ZMod q) logN k) (setupCount q logN k) k x) = x :=
  forward_backward (shortRoot_inverse prime congruent int built)
    (setupCount_inverse prime congruent short) x

omit int built in
/-- The setup of wide limbs returns for each small prime. -/
theorem exists_setup (narrow : q < 2 ^ 31) (fits : 2 * 2 ^ logN * 8 < 2 ^ 31) :
    ∃ root tables, setup (2 ^ logN) q .U64 (2 ^ 64) none = some (.ok (root, tables)) := by
  have odd := odd_of_congruent congruent
  have int : logN < 31 := by
    by_contra large
    have wide : 2 ^ 31 ≤ 2 ^ logN := Nat.pow_le_pow_right two_pos (not_lt.mp large)
    omega
  obtain ⟨root, tables, built, -⟩ := (@tables_right_iff q logN .U64 none prime odd (by omega)
    congruent int not_narrow (by simp)).mpr ⟨fits, fun _ => narrow_of_lt prime odd narrow⟩
  exact ⟨root, tables, built _ le_rfl⟩

end Setup

end Fideslib.Twiddles
