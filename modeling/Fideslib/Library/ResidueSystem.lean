/-
This file develops the approximate conversion of residues to one integer.
-/

import Mathlib.Algebra.BigOperators.Ring.Finset
import Mathlib.Algebra.Order.BigOperators.Group.Finset
import Mathlib.Data.Int.ModEq
import Mathlib.RingTheory.Coprime.Lemmas
import Mathlib.Tactic

namespace ResidueSystem

variable {ι : Type*} (towers : Finset ι) (modulus : ι → Nat)

def product : Nat := ∏ i ∈ towers, modulus i

/-- This is the product of the other moduli. -/
def cofactor (i : ι) : Nat := product towers modulus / modulus i

/-- The conversion scales each cofactor and sums without a reduction. -/
def lift (inverse x : ι → Nat) : Nat :=
  ∑ i ∈ towers, x i * inverse i % modulus i * cofactor towers modulus i

variable {towers modulus}

theorem lift_congr {inverse x y : ι → Nat} (same : ∀ i ∈ towers, x i = y i) :
    lift towers modulus inverse x = lift towers modulus inverse y := by
  apply Finset.sum_congr rfl
  intro i inside
  rw [same i inside]

section Cofactors

variable {i j : ι} (inside : i ∈ towers)

include inside

theorem cofactor_mul :
    modulus i * cofactor towers modulus i = product towers modulus :=
  Nat.mul_div_cancel' (Finset.dvd_prod_of_mem modulus inside)

variable [DecidableEq ι]

theorem cofactor_eq (positive : 0 < modulus i) :
    cofactor towers modulus i = ∏ j ∈ towers.erase i, modulus j := by
  rw [cofactor, product, ← Finset.mul_prod_erase towers modulus inside,
    Nat.mul_div_cancel_left _ positive]

theorem dvd_cofactor (positive : 0 < modulus i) (other : j ∈ towers) (different : j ≠ i) :
    modulus j ∣ cofactor towers modulus i := by
  rw [cofactor_eq inside positive]
  exact Finset.dvd_prod_of_mem modulus (Finset.mem_erase.mpr ⟨different, other⟩)

end Cofactors

section Lift

variable {inverse x : ι → Nat} (positive : ∀ i ∈ towers, 0 < modulus i)

include positive

/-- The lift exceeds the product less than once for each tower. -/
theorem lift_lt (nonempty : towers.Nonempty) :
    lift towers modulus inverse x < towers.card * product towers modulus := by
  calc lift towers modulus inverse x < ∑ _i ∈ towers, product towers modulus := by
        apply Finset.sum_lt_sum_of_nonempty nonempty
        intro i inside
        have whole := @cofactor_mul ι towers modulus i inside
        have total : 0 < product towers modulus := Finset.prod_pos positive
        have share : 0 < cofactor towers modulus i := by
          apply Nat.pos_of_ne_zero
          intro zero
          rw [zero, Nat.mul_zero] at whole
          omega
        calc x i * inverse i % modulus i * cofactor towers modulus i
            < modulus i * cofactor towers modulus i :=
              Nat.mul_lt_mul_of_pos_right (Nat.mod_lt _ (positive i inside)) share
          _ = product towers modulus := whole
    _ = towers.card * product towers modulus := by rw [Finset.sum_const, smul_eq_mul]

variable [DecidableEq ι]

/-- Each tower of the lift is the residue that went into it. -/
theorem lift_modEq
    (invert : ∀ i ∈ towers, inverse i * cofactor towers modulus i ≡ 1 [MOD modulus i])
    {i : ι} (inside : i ∈ towers) : lift towers modulus inverse x ≡ x i [MOD modulus i] := by
  have others : ∑ j ∈ towers.erase i, x j * inverse j % modulus j * cofactor towers modulus j ≡ 0
      [MOD modulus i] := by
    apply (Nat.modEq_zero_iff_dvd).mpr
    apply Finset.dvd_sum
    intro j member
    obtain ⟨different, other⟩ := Finset.mem_erase.mp member
    exact Dvd.dvd.mul_left (dvd_cofactor other (positive j other) inside different.symm) _
  have own : x i * inverse i % modulus i * cofactor towers modulus i ≡ x i [MOD modulus i] := by
    calc x i * inverse i % modulus i * cofactor towers modulus i
        ≡ x i * inverse i * cofactor towers modulus i [MOD modulus i] :=
          (Nat.mod_modEq _ _).mul_right _
      _ = x i * (inverse i * cofactor towers modulus i) := Nat.mul_assoc _ _ _
      _ ≡ x i * 1 [MOD modulus i] := (invert i inside).mul_left _
      _ = x i := Nat.mul_one _
  rw [lift, ← Finset.add_sum_erase towers _ inside]
  exact own.add others

/-- An integer and the lift of its residues differ by a multiple of the product. -/
theorem product_dvd_sub_lift
    (coprime : (towers : Set ι).Pairwise fun i j => Nat.Coprime (modulus i) (modulus j))
    (invert : ∀ i ∈ towers, inverse i * cofactor towers modulus i ≡ 1 [MOD modulus i]) {y : Int}
    (residues : ∀ i ∈ towers, y ≡ x i [ZMOD modulus i]) :
    (product towers modulus : Int) ∣ y - lift towers modulus inverse x := by
  rw [product, Nat.cast_prod]
  apply Finset.prod_dvd_of_coprime
  · intro i inside j other different
    exact Nat.isCoprime_iff_coprime.mpr (coprime inside other different)
  · intro i inside
    have same : (lift towers modulus inverse x : Int) ≡ x i [ZMOD modulus i] :=
      Int.natCast_modEq_iff.mpr (lift_modEq positive invert inside)
    exact Int.modEq_iff_dvd.mp (same.trans (residues i inside).symm)

end Lift

end ResidueSystem
