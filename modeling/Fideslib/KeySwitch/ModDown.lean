/-
This file translates the approximate mod-down and proves that it divides by the special primes.
-/

import Fideslib.KeySwitch.Transform

namespace Fideslib.KeySwitch

open Fideslib.Modular
open WordReduction (wrappingSum wrappingSum_eq wrappingSum_lt)

section Kernels

variable (cc : Constants) (algo : ALGO)

/-- A thread block scales the words of the special limbs in its shared memory. -/
def ModDown2Buffer (b : Nat → Limb) (idx i : Nat) : Nat :=
  let primeid := i + cc.L
  modmult algo (b i idx) (cc.ModDown_pre_scale primeid) (cc.primes primeid)
    (cc.ModDown_pre_scale_shoup primeid)

/-- The products with one column of the matrix share one reduction. -/
def ModDown2 (b : Nat → Limb) (primeid idx : Nat) : Nat :=
  let res := wrappingSum (2 ^ 128)
    (fun i => ModDown2Buffer cc algo b idx i * cc.ModDown_matrix i primeid) cc.K
  modreduce res (cc.primes primeid)

/-- The last step of the transform subtracts its result and divides by the special primes. -/
def moddown_fusion (primeid : Nat) (res A : Limb) (idx : Nat) : Nat :=
  let p := cc.primes primeid
  modmult algo (modsub (res idx) (A idx) p) (cc.P_inv primeid) p (cc.P_inv_shoup primeid)

end Kernels

namespace RNSPoly

variable (cc : Constants) (algo : ALGO)

/-- The special limbs leave the evaluation format in place. -/
def inttSpecial (self : RNSPoly) : Nat → Limb :=
  onLimbs self.specialLimbs (fun k => launch cc.N (cc.INTT (cc.L + k) (self.special k))
    (self.special k)) self.special

/-- The grid has whole blocks of 64 coefficients. -/
def convert (special auxLimbs : Nat → Limb) (limbsize : Nat) : Nat → Limb :=
  onLimbs limbsize (fun j => launch (cc.N / 64 * 64) (ModDown2 cc algo special j) (auxLimbs j))
    auxLimbs

/-- The second argument is the scratch polynomial of the context. -/
def moddown (ntt free : Bool) (self : RNSPoly) (auxLimbs : Nat → Limb) : Option RNSPoly :=
  if self.modUp ∧ cc.K ≤ self.specialLimbs then
    let limbsize := self.level + 1
    let special := if ntt then self.inttSpecial cc else self.special
    let aux := convert cc algo special auxLimbs limbsize
    some { self with
      limb := onLimbs limbsize (fun j =>
        launch cc.N (moddown_fusion cc algo j (self.limb j) (cc.NTT j (aux j))) (self.limb j))
        self.limb
      special
      specialLimbs := if free then 0 else self.specialLimbs
      modUp := false }
  else none

end RNSPoly

/-- The words of the limbs in use are reduced. -/
structure RNSPoly.Canonical (raw : RawParams) (poly : RNSPoly) : Prop where
  level : poly.level < raw.L
  limb : ∀ j, j ≤ poly.level → ∀ i, i < raw.N → poly.limb j i < raw.q j
  special : poly.modUp → ∀ k, k < raw.K → ∀ i, i < raw.N → poly.special k i < raw.p k
  allocated : poly.specialLimbs = 0 ∨ poly.specialLimbs = raw.K

/-- An extended polynomial owns all its special limbs. -/
def RNSPoly.Extended (raw : RawParams) (poly : RNSPoly) : Prop :=
  poly.modUp ∧ poly.specialLimbs = raw.K

namespace RawParams

variable (raw : RawParams)

/-- This integer has the special residues of one coefficient. -/
def conv (special : Nat → Nat) : Nat :=
  ResidueSystem.lift (Finset.range raw.K) raw.p (fun k => raw.PHatInvModp.getD k 0) special

/-- The mod-down starts from the coefficients of the special limbs. -/
def specialCoefficients (ntt : Bool) (poly : RNSPoly) (k : Nat) : Limb :=
  if ntt then (Constants.SetupConstants raw).INTT (raw.L + k) (poly.special k) else poly.special k

end RawParams

open Constants (SetupConstants)

section Correctness

variable {raw : RawParams} (generated : raw.Generated) (algo : ALGO)

include generated

theorem ModDown2Buffer_eq {b : Nat → Limb} {idx i : Nat} (inside : i < raw.K)
    (canonical : b i idx < raw.p i) :
    ModDown2Buffer (SetupConstants raw) algo b idx i =
      b i idx * raw.PHatInvModp.getD i 0 % raw.p i := by
  have place : raw.prime (i + raw.L) = raw.p i := by rw [Nat.add_comm, raw.prime_p]
  have modulus := generated.modulus (show i + raw.L < raw.L + raw.K by omega)
  rw [place] at modulus
  have small := generated.hat_inverse_small i inside
  change modmult algo (b i idx) (raw.PHatInvModp.getD (i + raw.L - raw.L) 0)
    (raw.prime (i + raw.L)) (shoup_precomp (raw.PHatInvModp.getD (i + raw.L - raw.L) 0)
      (raw.prime (i + raw.L))) = _
  rw [Nat.add_sub_cancel, place]
  exact modmult_eq modulus algo canonical small

/-- The wide sum does not overflow, so the conversion is exact up to the product. -/
theorem ModDown2_eq {b : Nat → Limb} {idx j : Nat} (inside : j < raw.L)
    (canonical : ∀ k, k < raw.K → b k idx < raw.p k) :
    ModDown2 (SetupConstants raw) algo b j idx =
      raw.conv (fun k => b k idx) % raw.q j := by
  have tables := generated.tables
  have modulus := generated.modulus (show j < raw.L + raw.K by omega)
  rw [raw.prime_q inside] at modulus
  have term : ∀ k, k < raw.K → ModDown2Buffer (SetupConstants raw) algo b idx k *
      (SetupConstants raw).ModDown_matrix k j =
        b k idx * raw.PHatInvModp.getD k 0 % raw.p k * (raw.PHat k % raw.q j) := by
    intro k bound
    rw [ModDown2Buffer_eq generated algo bound (canonical k bound)]
    exact congrArg _ (generated.hat k j bound inside)
  have bounded : ∀ k, k < raw.K → ModDown2Buffer (SetupConstants raw) algo b idx k *
      (SetupConstants raw).ModDown_matrix k j ≤ 2 ^ 60 * 2 ^ 60 := by
    intro k bound
    have special := generated.small (raw.L + k) (by omega)
    have positive := (generated.prime (raw.L + k) (by omega)).pos
    rw [raw.prime_p] at special positive
    have first := Nat.mod_lt (b k idx * raw.PHatInvModp.getD k 0) positive
    have second := Nat.mod_lt (raw.PHat k) modulus.pos
    have regular := modulus.small
    rw [term k bound]
    exact Nat.mul_le_mul (by omega) (by omega)
  have sum := wrappingSum_eq bounded (show raw.K * (2 ^ 60 * 2 ^ 60) < 2 ^ 128 by omega)
  have wide := wrappingSum_lt (Nat.two_pow_pos 128) (fun k =>
    ModDown2Buffer (SetupConstants raw) algo b idx k *
      (SetupConstants raw).ModDown_matrix k j) raw.K
  rw [ModDown2, show (SetupConstants raw).primes j = raw.q j from raw.prime_q inside]
  change modreduce (wrappingSum (2 ^ 128) (fun k => ModDown2Buffer (SetupConstants raw) algo b idx k *
    (SetupConstants raw).ModDown_matrix k j) raw.K) _ = _
  rw [modreduce_eq modulus wide, sum, RawParams.conv, ResidueSystem.lift, Finset.sum_nat_mod]
  conv_rhs => rw [Finset.sum_nat_mod]
  congr 1
  apply Finset.sum_congr rfl
  intro k member
  rw [term k (Finset.mem_range.mp member), Nat.mul_mod_mod]
  rfl

end Correctness

end Fideslib.KeySwitch

namespace Fideslib.KeySwitch

open Fideslib.Modular
open Constants (SetupConstants)

theorem primes_q {raw : RawParams} {j : Nat} (inside : j < raw.L) :
    (SetupConstants raw).primes j = raw.q j := raw.prime_q inside

section Words

variable {raw : RawParams} (generated : raw.Generated) {j : Nat} (inside : j < raw.L)

include generated inside

theorem modulus_q : Modulus (raw.q j) := by
  rw [← raw.prime_q inside]
  exact generated.modulus (by omega)

theorem P_inv_lt : (SetupConstants raw).P_inv j < raw.q j := generated.inverse_small j inside

theorem P_lt : (SetupConstants raw).P j < raw.q j := by
  rw [Constants.P, primes_q inside]
  exact modinv_lt (modulus_q generated inside).large _

theorem P_inv_mul_P :
    ((SetupConstants raw).P_inv j : ZMod (raw.q j)) * (SetupConstants raw).P j = 1 := by
  have prime : Fact (raw.q j).Prime := by
    rw [← raw.prime_q inside]
    exact generated.fact_prime (by omega)
  have unit : ((SetupConstants raw).P_inv j : ZMod (raw.q j)) * raw.P = 1 :=
    generated.inverse_cast inside
  have nonzero : ((SetupConstants raw).P_inv j : ZMod (raw.q j)) ≠ 0 := left_ne_zero_of_mul_eq_one unit
  rw [Constants.P, primes_q inside, mul_comm]
  exact modinv_cast _ nonzero

theorem P_inv_cast : ((SetupConstants raw).P_inv j : ZMod (raw.q j)) = (raw.P : ZMod (raw.q j))⁻¹ := by
  have unit : ((SetupConstants raw).P_inv j : ZMod (raw.q j)) * raw.P = 1 :=
    generated.inverse_cast inside
  have invertible : IsUnit (raw.P : ZMod (raw.q j)) := IsUnit.of_mul_eq_one_right _ unit
  calc ((SetupConstants raw).P_inv j : ZMod (raw.q j))
      = (SetupConstants raw).P_inv j * (raw.P * (raw.P : ZMod (raw.q j))⁻¹) := by
        rw [ZMod.mul_inv_of_unit _ invertible, mul_one]
    _ = (raw.P : ZMod (raw.q j))⁻¹ := by rw [← mul_assoc, unit, one_mul]

section Fusion

variable (algo : ALGO) {res A : Limb} {idx : Nat} (first : res idx < raw.q j)
  (second : A idx < raw.q j)

include first second

theorem moddown_fusion_lt : moddown_fusion (SetupConstants raw) algo j res A idx < raw.q j := by
  have modulus := modulus_q generated inside
  rw [moddown_fusion, Constants.P_inv_shoup, primes_q inside]
  exact modmult_lt modulus algo (modsub_lt modulus first second) (P_inv_lt generated inside)

theorem moddown_fusion_cast :
    (moddown_fusion (SetupConstants raw) algo j res A idx : ZMod (raw.q j)) =
      (res idx - A idx) * (SetupConstants raw).P_inv j := by
  have modulus := modulus_q generated inside
  rw [moddown_fusion, Constants.P_inv_shoup, primes_q inside,
    modmult_cast modulus algo (modsub_lt modulus first second) (P_inv_lt generated inside),
    modsub_cast modulus first second]

end Fusion

section Sums

variable {elem_b idx : Nat} {a b : Limb} (first : a idx < raw.q j)
  (second : b (bidx (SetupConstants raw) elem_b idx) < raw.q j)

include first second

theorem add_lt : add_ (SetupConstants raw) j elem_b a b idx < raw.q j := by
  rw [add_, primes_q inside]
  exact modadd_lt (modulus_q generated inside) first second

theorem add_cast : (add_ (SetupConstants raw) j elem_b a b idx : ZMod (raw.q j)) =
    a idx + b (bidx (SetupConstants raw) elem_b idx) := by
  rw [add_, primes_q inside, modadd_cast (modulus_q generated inside) first second]

theorem add_scale_p_b_lt : add_scale_p_b_ (SetupConstants raw) j elem_b a b idx < raw.q j := by
  have modulus := modulus_q generated inside
  rw [add_scale_p_b_, Constants.P_shoup, primes_q inside]
  exact modadd_lt modulus first (modmult_lt modulus .shoup second (P_lt generated inside))

theorem add_scale_p_b_cast :
    (add_scale_p_b_ (SetupConstants raw) j elem_b a b idx : ZMod (raw.q j)) =
      a idx + b (bidx (SetupConstants raw) elem_b idx) * (SetupConstants raw).P j := by
  have modulus := modulus_q generated inside
  rw [add_scale_p_b_, Constants.P_shoup, primes_q inside,
    modadd_cast modulus first (modmult_lt modulus .shoup second (P_lt generated inside)),
    modmult_cast modulus .shoup second (P_lt generated inside)]

theorem add_scale_p_a_lt : add_scale_p_a_ (SetupConstants raw) j elem_b a b idx < raw.q j := by
  have modulus := modulus_q generated inside
  rw [add_scale_p_a_, Constants.P_shoup, primes_q inside]
  exact modadd_lt modulus second (modmult_lt modulus .shoup first (P_lt generated inside))

theorem add_scale_p_a_cast :
    (add_scale_p_a_ (SetupConstants raw) j elem_b a b idx : ZMod (raw.q j)) =
      b (bidx (SetupConstants raw) elem_b idx) + a idx * (SetupConstants raw).P j := by
  have modulus := modulus_q generated inside
  rw [add_scale_p_a_, Constants.P_shoup, primes_q inside,
    modadd_cast modulus second (modmult_lt modulus .shoup first (P_lt generated inside)),
    modmult_cast modulus .shoup first (P_lt generated inside)]

end Sums

section Folds

variable (algo : ALGO) {elem_b idx : Nat} {x y A : Limb} (subtracted : A idx < raw.q j)

include subtracted

/-- The division takes the scale off a summand that was folded into the extended operand. -/
theorem moddown_fusion_scale_b (extended : y idx < raw.q j)
    (regular : x (bidx (SetupConstants raw) elem_b idx) < raw.q j) :
    moddown_fusion (SetupConstants raw) algo j
        (add_scale_p_b_ (SetupConstants raw) j elem_b y x) A idx =
      add_ (SetupConstants raw) j elem_b (moddown_fusion (SetupConstants raw) algo j y A) x idx := by
  have folded := add_scale_p_b_lt generated inside extended regular
  have divided := moddown_fusion_lt generated inside algo extended subtracted
  apply word_ext (moddown_fusion_lt generated inside algo folded subtracted)
    (add_lt generated inside divided regular)
  rw [moddown_fusion_cast generated inside algo folded subtracted,
    add_scale_p_b_cast generated inside extended regular,
    add_cast generated inside divided regular,
    moddown_fusion_cast generated inside algo extended subtracted]
  linear_combination (x (bidx (SetupConstants raw) elem_b idx) : ZMod (raw.q j)) *
    P_inv_mul_P generated inside

theorem moddown_fusion_scale_a (aligned : bidx (SetupConstants raw) elem_b idx = idx)
    (extended : y idx < raw.q j) (regular : x idx < raw.q j) :
    moddown_fusion (SetupConstants raw) algo j
        (add_scale_p_a_ (SetupConstants raw) j elem_b x y) A idx =
      add_ (SetupConstants raw) j elem_b x (moddown_fusion (SetupConstants raw) algo j y A) idx := by
  have operand : y (bidx (SetupConstants raw) elem_b idx) < raw.q j := by rwa [aligned]
  have folded := add_scale_p_a_lt generated inside regular operand
  have divided := moddown_fusion_lt generated inside algo extended subtracted
  have summand : moddown_fusion (SetupConstants raw) algo j y A
      (bidx (SetupConstants raw) elem_b idx) < raw.q j := by rwa [aligned]
  apply word_ext (moddown_fusion_lt generated inside algo folded subtracted)
    (add_lt generated inside regular summand)
  rw [moddown_fusion_cast generated inside algo folded subtracted,
    add_scale_p_a_cast generated inside regular operand,
    add_cast generated inside regular summand, aligned,
    moddown_fusion_cast generated inside algo extended subtracted]
  linear_combination (x idx : ZMod (raw.q j)) * P_inv_mul_P generated inside

end Folds

end Words

namespace RawParams

variable (raw : RawParams)

/-- This is the integer lift of the special limbs, coefficient by coefficient. -/
def lifted (ntt : Bool) (poly : RNSPoly) (i : Nat) : Nat :=
  raw.conv fun k => raw.specialCoefficients ntt poly k i

end RawParams

section Launches

variable {raw : RawParams} (generated : raw.Generated)

include generated

theorem whole_blocks : (SetupConstants raw).N / 64 * 64 = raw.N := by
  have ring := generated.ring
  have divides : 64 ∣ raw.N := pow_dvd_pow 2 (show 6 ≤ raw.logN by omega)
  exact Nat.div_mul_cancel divides

omit generated in
theorem threads_eq : threads (SetupConstants raw) = raw.N := Kernels.launch_covers raw.logN

omit generated in
theorem bidx_lt {elem_b idx : Nat} (inside : idx < raw.N) :
    bidx (SetupConstants raw) elem_b idx < raw.N :=
  (Nat.shiftRight_le _ _).trans_lt inside

omit generated in
theorem bidx_whole (idx : Nat) : bidx (SetupConstants raw) raw.N idx = idx := by
  have positive : 0 < raw.N := Nat.two_pow_pos _
  rw [bidx, threads_eq, Kernels.logstride, Nat.div_self positive, LinearTransform.ffs,
    if_neg Nat.one_ne_zero, padicValNat_one_right]
  rfl

variable {ntt : Bool} {poly : RNSPoly}

theorem specialCoefficients_lt (canonical : poly.Canonical raw) (extended : poly.Extended raw)
    {k i : Nat} (inside : k < raw.K) (bound : i < raw.N) :
    raw.specialCoefficients ntt poly k i < raw.p k := by
  cases ntt with
  | false => exact canonical.special extended.1 k inside i bound
  | true =>
      rw [← raw.prime_p]
      exact Constants.INTT_lt (generated.modulus (show raw.L + k < raw.L + raw.K by omega)).pos _ i

omit generated in
theorem ready_eq (extended : poly.Extended raw) {k i : Nat} (inside : k < raw.K)
    (bound : i < raw.N) :
    (if ntt then poly.inttSpecial (SetupConstants raw) else poly.special) k i =
      raw.specialCoefficients ntt poly k i := by
  cases ntt with
  | false => rfl
  | true =>
      have owned : k < poly.specialLimbs := by
        rw [extended.2]
        exact inside
      rw [if_pos rfl, RNSPoly.inttSpecial, onLimbs_inside _ _ owned]
      exact launch_inside _ _ bound

/-- The scratch limbs hold the residues of the lift. -/
theorem convert_eq (algo : ALGO) (canonical : poly.Canonical raw) (extended : poly.Extended raw)
    (auxLimbs : Nat → Limb) {j i : Nat} (inside : j ≤ poly.level) (bound : i < raw.N) :
    RNSPoly.convert (SetupConstants raw) algo
        (if ntt then poly.inttSpecial (SetupConstants raw) else poly.special) auxLimbs
        (poly.level + 1) j i = raw.lifted ntt poly i % raw.q j := by
  have chain := canonical.level
  have ready : ∀ k, k < raw.K →
      (if ntt then poly.inttSpecial (SetupConstants raw) else poly.special) k i =
        raw.specialCoefficients ntt poly k i := fun k below => ready_eq extended below bound
  rw [RNSPoly.convert, onLimbs_inside _ _ (by omega), whole_blocks generated,
    launch_inside _ _ bound, ModDown2_eq generated algo (by omega)]
  · rw [RawParams.lifted]
    congr 1
    apply ResidueSystem.lift_congr
    intro k member
    exact ready k (Finset.mem_range.mp member)
  · intro k below
    rw [ready k below]
    exact specialCoefficients_lt generated canonical extended below bound

variable (ntt)

/-- Each word of the result is the fused step on the transform of the lift. -/
theorem moddown_words (algo : ALGO) (free : Bool) (canonical : poly.Canonical raw)
    (extended : poly.Extended raw) (auxLimbs : Nat → Limb) :
    ∃ out, poly.moddown (SetupConstants raw) algo ntt free auxLimbs = some out ∧
      out.level = poly.level ∧ out.modUp = false ∧
      ∀ j, j ≤ poly.level → ∀ i, i < raw.N → out.limb j i =
        moddown_fusion (SetupConstants raw) algo j (poly.limb j)
          ((SetupConstants raw).NTT j (raw.lifted ntt poly)) i := by
  have ready : poly.modUp ∧ (SetupConstants raw).K ≤ poly.specialLimbs :=
    ⟨extended.1, extended.2.ge⟩
  have chain := canonical.level
  rw [RNSPoly.moddown, if_pos ready]
  have transformed : ∀ j, j ≤ poly.level → ∀ i, i < raw.N →
      (SetupConstants raw).NTT j (RNSPoly.convert (SetupConstants raw) algo
        (if ntt then poly.inttSpecial (SetupConstants raw) else poly.special) auxLimbs
        (poly.level + 1) j) i = (SetupConstants raw).NTT j (raw.lifted ntt poly) i := by
    intro j inside i bound
    apply generated.NTT_congr _ bound
    intro position below
    rw [convert_eq generated algo canonical extended auxLimbs inside below, raw.prime_q (by omega),
      ZMod.natCast_mod]
  refine ⟨_, rfl, rfl, rfl, ?_⟩
  intro j inside i bound
  dsimp only
  rw [onLimbs_inside _ _ (by omega)]
  change launch raw.N _ _ i = _
  rw [launch_inside _ _ bound, moddown_fusion, transformed j inside i bound]
  rfl

end Launches

end Fideslib.KeySwitch
