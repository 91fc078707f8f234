/-
This file models the tables that a context loads on its device for the key switch.
-/

import Fideslib.Library.ResidueSystem
import Fideslib.Modular.Words

namespace Fideslib.KeySwitch

open Fideslib.Modular

/-- These are the parameters that the library copies from the source context. -/
structure RawParams where
  logN : Nat
  moduli : List Nat
  SPECIALmoduli : List Nat
  root_of_unity : List Nat
  SPECIALroot_of_unity : List Nat
  PInvModq : List Nat
  PHatInvModp : List Nat
  PHatModq : List (List Nat)

namespace RawParams

variable (raw : RawParams)

def N : Nat := 2 ^ raw.logN

def L : Nat := raw.moduli.length

def K : Nat := raw.SPECIALmoduli.length

def q (i : Nat) : Nat := raw.moduli.getD i 0

def p (k : Nat) : Nat := raw.SPECIALmoduli.getD k 0

/-- The special primes follow the primes of the chain. -/
def prime (id : Nat) : Nat := if id < raw.L then raw.q id else raw.p (id - raw.L)

def root (id : Nat) : Nat :=
  if id < raw.L then raw.root_of_unity.getD id 0
  else raw.SPECIALroot_of_unity.getD (id - raw.L) 0

/-- This is the product of the special primes. -/
def P : Nat := ResidueSystem.product (Finset.range raw.K) raw.p

/-- This is the product of the other special primes. -/
def PHat (k : Nat) : Nat := ResidueSystem.cofactor (Finset.range raw.K) raw.p k

theorem prime_q {i : Nat} (inside : i < raw.L) : raw.prime i = raw.q i := if_pos inside

theorem prime_p (k : Nat) : raw.prime (raw.L + k) = raw.p k := by
  rw [prime, if_neg (by omega), Nat.add_sub_cancel_left]

/-- The source context documents these facts about its primes and its tables. -/
structure Generated : Prop where
  ring : 7 ≤ raw.logN
  tables : raw.L + raw.K ≤ 64
  prime : ∀ id, id < raw.L + raw.K → (raw.prime id).Prime
  small : ∀ id, id < raw.L + raw.K → raw.prime id < 2 ^ 60
  odd : ∀ id, id < raw.L + raw.K → raw.prime id ≠ 2
  distinct : ∀ id other, id < raw.L + raw.K → other < raw.L + raw.K →
    raw.prime id = raw.prime other → id = other
  root : ∀ id, id < raw.L + raw.K → raw.root id ^ raw.N % raw.prime id = raw.prime id - 1
  inverse_small : ∀ i, i < raw.L → raw.PInvModq.getD i 0 < raw.q i
  inverse : ∀ i, i < raw.L → raw.PInvModq.getD i 0 * raw.P % raw.q i = 1
  hat_inverse_small : ∀ k, k < raw.K → raw.PHatInvModp.getD k 0 < raw.p k
  hat_inverse : ∀ k, k < raw.K → raw.PHatInvModp.getD k 0 * raw.PHat k % raw.p k = 1
  hat : ∀ k i, k < raw.K → i < raw.L →
    (raw.PHatModq.getD k []).getD i 0 = raw.PHat k % raw.q i

end RawParams

/-- These are the tables in the constant and the global memory of the device. -/
structure Constants where
  N : Nat
  logN : Nat
  L : Nat
  K : Nat
  primes : Nat → Nat
  root : Nat → Nat
  P_inv : Nat → Nat
  ModDown_pre_scale : Nat → Nat
  ModDown_matrix : Nat → Nat → Nat

namespace Constants

/-- The host loads the tables of the source context into the arrays of the device. -/
def SetupConstants (raw : RawParams) : Constants where
  N := raw.N
  logN := raw.logN
  L := raw.L
  K := raw.K
  primes := raw.prime
  root := raw.root
  P_inv i := raw.PInvModq.getD i 0
  ModDown_pre_scale id := raw.PHatInvModp.getD (id - raw.L) 0
  ModDown_matrix k i := (raw.PHatModq.getD k []).getD i 0

variable (cc : Constants)

def P_inv_shoup (i : Nat) : Nat := shoup_precomp (cc.P_inv i) (cc.primes i)

/-- The host inverts the table of the source context. -/
def P (i : Nat) : Nat := modinv (cc.P_inv i) (cc.primes i)

def P_shoup (i : Nat) : Nat := shoup_precomp (cc.P i) (cc.primes i)

def ModDown_pre_scale_shoup (id : Nat) : Nat :=
  shoup_precomp (cc.ModDown_pre_scale id) (cc.primes id)

def inv_root (id : Nat) : Nat := modinv (cc.root id) (cc.primes id)

def N_inv (id : Nat) : Nat := modinv cc.N (cc.primes id)

end Constants

namespace RawParams.Generated

variable {raw : RawParams} (generated : raw.Generated)

include generated

theorem modulus {id : Nat} (inside : id < raw.L + raw.K) : Modulus (raw.prime id) where
  large := (generated.prime id inside).two_le
  small := generated.small id inside

theorem positive_p {k : Nat} (inside : k ∈ Finset.range raw.K) : 0 < raw.p k := by
  have bound := Finset.mem_range.mp inside
  rw [← raw.prime_p]
  exact (generated.prime _ (by omega)).pos

theorem coprime_p : (Finset.range raw.K : Set Nat).Pairwise
    fun k other => Nat.Coprime (raw.p k) (raw.p other) := by
  intro k first other second different
  have firstBound := Finset.mem_range.mp first
  have secondBound := Finset.mem_range.mp second
  simp only [← raw.prime_p]
  apply (Nat.coprime_primes (generated.prime _ (by omega)) (generated.prime _ (by omega))).mpr
  intro same
  have equal := generated.distinct _ _ (by omega) (by omega) same
  omega

theorem invert_p {k : Nat} (inside : k ∈ Finset.range raw.K) :
    raw.PHatInvModp.getD k 0 * raw.PHat k ≡ 1 [MOD raw.p k] := by
  have bound := Finset.mem_range.mp inside
  have large := (generated.prime (raw.L + k) (by omega)).one_lt
  rw [raw.prime_p] at large
  rw [Nat.ModEq, generated.hat_inverse k bound, Nat.mod_eq_of_lt large]

/-- The product of the special primes is invertible modulo each prime of the chain. -/
theorem inverse_cast {i : Nat} (inside : i < raw.L) :
    (raw.PInvModq.getD i 0 : ZMod (raw.q i)) * raw.P = 1 := by
  have one := generated.inverse i inside
  have cast := congrArg (Nat.cast : Nat → ZMod (raw.q i)) one
  rwa [ZMod.natCast_mod, Nat.cast_mul, Nat.cast_one] at cast

theorem fact_prime {id : Nat} (inside : id < raw.L + raw.K) : Fact (raw.prime id).Prime :=
  ⟨generated.prime id inside⟩

end RawParams.Generated

end Fideslib.KeySwitch
