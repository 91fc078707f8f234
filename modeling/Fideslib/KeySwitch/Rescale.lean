/-
This file models the rescale of a polynomial and proves that it is an exact division.
-/

import Fideslib.KeySwitch.Automorphism
import Fideslib.KeySwitch.ModDownContract

namespace Fideslib.KeySwitch

open Constants (SetupConstants)
open Fideslib.Modular

namespace Constants

variable (cc : Constants)

def one_shoup (id : Nat) : Nat := Modular.one_shoup (cc.primes id)

/-- The host inverts each prime modulo each other one. -/
def q_inv (i j : Nat) : Nat := modinv (cc.primes i) (cc.primes j)

/-- The words wrap at 64 bits. -/
def SwitchModulus (om_pid nm_pid a : Nat) : Nat :=
  let om := cc.primes om_pid
  let nm := cc.primes nm_pid
  let halfQ := om >>> 1
  if nm > om then
    let diff := nm - om
    if a > halfQ then (a + diff) % 2 ^ 64 else a
  else
    let diff := (nm + 2 ^ 64 - modmult .shoup om 1 nm (cc.one_shoup nm_pid)) % 2 ^ 64
    let a := if a > halfQ then (a + diff) % 2 ^ 64 else a
    if a ≥ nm then modmult .shoup a 1 nm (cc.one_shoup nm_pid) else a

end Constants

section Kernels

variable (cc : Constants)

/-- The last step of the transform subtracts its result and divides by the prime of the top limb. -/
def rescale_fusion (algo_ : ALGO) (primeid primeid_rescale : Nat) (res A : Limb) (idx : Nat) : Nat :=
  let algo := if algo_ = .shoup then .barrett else algo_
  let p := cc.primes primeid
  modmult algo (cc.q_inv primeid_rescale primeid) (modsub (res idx) (A idx) p) p 0

/-- The top limb leaves the evaluation format in place, and each other limb is transformed with it. -/
def RNSPoly.rescale (algo_ : ALGO) (self : RNSPoly) : Option RNSPoly :=
  let limbsize := self.level + 1
  if limbsize > 1 then
    let top := limbsize - 1
    let coefficients := launch cc.N (cc.INTT top (self.limb top)) (self.limb top)
    let loaded := fun i idx => cc.SwitchModulus top i (coefficients idx)
    some { self with
      level := self.level - 1
      limb := onLimbs (limbsize - 1)
        (fun i => launch cc.N (rescale_fusion cc algo_ i top (self.limb i) (cc.NTT i (loaded i)))
          (self.limb i))
        (Function.update self.limb top coefficients) }
  else none

end Kernels

section Switch

variable {cc : Constants} {om nm : Nat} (source : Modulus (cc.primes om))
  (target : Modulus (cc.primes nm))

include target in
theorem one_shoup_mult {x : Nat} (word : x < 2 ^ 64) :
    modmult .shoup x 1 (cc.primes nm) (cc.one_shoup nm) = x % cc.primes nm := by
  have product := Shoup_mult_64_eq target word target.large
  rw [Nat.mul_one] at product
  rw [modmult, Constants.one_shoup, one_shoup, product]

include source target

/-- The switch adds the difference of the moduli to the upper half and reduces once. -/
theorem SwitchModulus_eq {a : Nat} (small : a < cc.primes om) :
    cc.SwitchModulus om nm a =
      (if cc.primes om / 2 < a then a + (cc.primes nm - cc.primes om % cc.primes nm) else a) %
        cc.primes nm := by
  have first := source.small
  have second := target.small
  have rest : cc.primes om % cc.primes nm < cc.primes nm := Nat.mod_lt _ target.pos
  have half : cc.primes om >>> 1 = cc.primes om / 2 := by rw [Nat.shiftRight_eq_div_pow, pow_one]
  simp only [Constants.SwitchModulus, half, gt_iff_lt]
  by_cases wider : cc.primes om < cc.primes nm
  · have kept : cc.primes om % cc.primes nm = cc.primes om := Nat.mod_eq_of_lt wider
    rw [if_pos wider, kept]
    split_ifs
    · rw [Nat.mod_eq_of_lt (by omega), Nat.mod_eq_of_lt (by omega)]
    · rw [Nat.mod_eq_of_lt (by omega)]
  · have wrapped : (cc.primes nm + 2 ^ 64 - cc.primes om % cc.primes nm) % 2 ^ 64 =
        cc.primes nm - cc.primes om % cc.primes nm := by
      have shifted : cc.primes nm + 2 ^ 64 - cc.primes om % cc.primes nm =
          cc.primes nm - cc.primes om % cc.primes nm + 2 ^ 64 := by omega
      rw [shifted, Nat.add_mod_right, Nat.mod_eq_of_lt (by omega)]
    rw [if_neg wider, one_shoup_mult target (by omega), wrapped]
    -- The word after the shift is reduced only when it is not canonical yet.
    generalize moved_eq : (if cc.primes om / 2 < a then
      (a + (cc.primes nm - cc.primes om % cc.primes nm)) % 2 ^ 64 else a) = moved
    have exactly : moved = if cc.primes om / 2 < a then
        a + (cc.primes nm - cc.primes om % cc.primes nm) else a := by
      rw [← moved_eq]
      split_ifs
      · exact Nat.mod_eq_of_lt (by omega)
      · rfl
    have word : moved < 2 ^ 64 := by
      rw [exactly]
      split_ifs <;> omega
    rw [← exactly]
    by_cases canonical : cc.primes nm ≤ moved
    · rw [if_pos canonical, one_shoup_mult target word]
    · rw [if_neg canonical, Nat.mod_eq_of_lt (not_le.mp canonical)]

theorem SwitchModulus_lt {a : Nat} (small : a < cc.primes om) :
    cc.SwitchModulus om nm a < cc.primes nm := by
  rw [SwitchModulus_eq source target small]
  exact Nat.mod_lt _ target.pos

/-- The switched word is the residue of the lift that is closest to zero. -/
theorem SwitchModulus_cast {a : Nat} (small : a < cc.primes om) :
    (cc.SwitchModulus om nm a : ZMod (cc.primes nm)) =
      ((a : ZMod (cc.primes om)).valMinAbs : ZMod (cc.primes nm)) := by
  have nonzero : NeZero (cc.primes om) := ⟨source.pos.ne'⟩
  have rest : cc.primes om % cc.primes nm ≤ cc.primes nm := (Nat.mod_lt _ target.pos).le
  rw [SwitchModulus_eq source target small, ZMod.natCast_mod, ZMod.valMinAbs_def_pos,
    ZMod.val_natCast_of_lt small]
  by_cases high : cc.primes om / 2 < a
  · rw [if_pos high, if_neg (not_le.mpr high)]
    push_cast [Nat.cast_sub rest]
    rw [ZMod.natCast_self, ZMod.natCast_mod]
    ring
  · rw [if_neg high, if_pos (not_lt.mp high), Int.cast_natCast]

end Switch

/-- The fused step takes an algorithm without prepared factors. -/
theorem unprepared_eq {p : Nat} (modulus : Modulus p) (algo_ : ALGO) {a b : Nat} (left : a < p)
    (right : b < p) : modmult (if algo_ = .shoup then .barrett else algo_) a b p 0 = a * b % p := by
  cases algo_ with
  | native => rfl
  | shoup => exact barrett_eq modulus left right
  | barrett => exact barrett_eq modulus left right

/-- This is the representative of a residue class that is closest to zero. -/
def centred (q : Nat) (x : Int) : Int := (x : ZMod q).valMinAbs

/-- An integer differs from its centred residue by a multiple of the modulus. -/
theorem centred_dvd (q : Nat) (x : Int) : (q : Int) ∣ x - centred q x := by
  apply (ZMod.intCast_eq_intCast_iff_dvd_sub _ _ _).mp
  rw [centred, ZMod.coe_valMinAbs]

/-- The coefficients of a polynomial are the residues of these integers. -/
def RNSPoly.Represents (raw : RawParams) (poly : RNSPoly) (X : Nat → Int) : Prop :=
  ∀ j, j ≤ poly.level → ∀ i, i < raw.N →
    ((SetupConstants raw).INTT j (poly.limb j) i : ZMod (raw.prime j)) = X i

section Division

variable {raw : RawParams} (generated : raw.Generated) {top j : Nat} (above : top < raw.L + raw.K)
  (inside : j < raw.L + raw.K)

include generated above inside

/-- Distinct primes are invertible modulo each other. -/
theorem q_inv_cast (different : top ≠ j) :
    ((SetupConstants raw).q_inv top j : ZMod (raw.prime j)) * raw.prime top = 1 := by
  have fact := generated.fact_prime inside
  apply @modinv_cast (raw.prime j) fact
  intro zero
  have divides := (ZMod.natCast_eq_zero_iff _ _).mp zero
  have same := (Nat.prime_dvd_prime_iff_eq (generated.prime j inside)
    (generated.prime top above)).mp divides
  exact different (generated.distinct top j above inside same.symm)

omit above in
/-- The fused step multiplies a difference by the inverse of the top prime. -/
theorem rescale_fusion_cast (algo_ : ALGO) {res A : Limb} {idx : Nat}
    (first : res idx < raw.prime j) (second : A idx < raw.prime j) :
    rescale_fusion (SetupConstants raw) algo_ j top res A idx < raw.prime j ∧
      (rescale_fusion (SetupConstants raw) algo_ j top res A idx : ZMod (raw.prime j)) =
        (SetupConstants raw).q_inv top j * (res idx - A idx) := by
  have modulus := generated.modulus inside
  have difference := modsub_lt modulus first second
  have inverse : (SetupConstants raw).q_inv top j < raw.prime j := modinv_lt modulus.large _
  have product : rescale_fusion (SetupConstants raw) algo_ j top res A idx =
      (SetupConstants raw).q_inv top j * modsub (res idx) (A idx) (raw.prime j) % raw.prime j :=
    unprepared_eq modulus algo_ inverse difference
  refine ⟨?_, ?_⟩
  · rw [product]
    exact Nat.mod_lt _ modulus.pos
  · rw [product, ZMod.natCast_mod, Nat.cast_mul, modsub_cast modulus first second]

end Division

/-- Each remaining limb is divided by the prime of the top limb. -/
structure RNSPoly.Divided (raw : RawParams) (result poly : RNSPoly) (X : Nat → Int) : Prop where
  level : result.level + 1 = poly.level
  canonical : ∀ j, j ≤ result.level → ∀ i, i < raw.N → result.limb j i < raw.prime j
  quotient : result.Represents raw fun i =>
    (X i - centred (raw.prime poly.level) (X i)) / raw.prime poly.level

section Contract

variable {raw : RawParams} (generated : raw.Generated)

include generated

/-- The quotient of the integer is the difference of the residues times the inverse. -/
theorem quotient_cast {top j : Nat} (above : top < raw.L + raw.K) (inside : j < raw.L + raw.K)
    (different : top ≠ j) (x : Int) :
    (SetupConstants raw).q_inv top j * ((x : ZMod (raw.prime j)) - centred (raw.prime top) x) =
      ((x - centred (raw.prime top) x) / raw.prime top : Int) := by
  have whole := Int.mul_ediv_cancel' (centred_dvd (raw.prime top) x)
  have split := congrArg (Int.cast : Int → ZMod (raw.prime j)) whole
  have cancels := q_inv_cast generated above inside different
  push_cast at split
  rw [← split, ← mul_assoc, cancels, one_mul]

/-- Each limb of the result is the transform of the quotients. -/
theorem rescale_limb (algo_ : ALGO) {top j : Nat} (above : top < raw.L) (inside : j < top)
    {x y : Limb} (reduced : ∀ i, i < raw.N → x i < raw.prime j)
    (coefficients : ∀ i, i < raw.N → y i < raw.prime top) {X : Nat → Int}
    (lower : ∀ i, i < raw.N → ((SetupConstants raw).INTT j x i : ZMod (raw.prime j)) = X i)
    (upper : ∀ i, i < raw.N → (y i : ZMod (raw.prime top)) = X i) {old : Limb} :
    let result := launch raw.N (rescale_fusion (SetupConstants raw) algo_ j top x
      ((SetupConstants raw).NTT j fun i => (SetupConstants raw).SwitchModulus top j (y i))) old
    ∀ i, i < raw.N → result i < raw.prime j ∧
      ((SetupConstants raw).INTT j result i : ZMod (raw.prime j)) =
        ((X i - centred (raw.prime top) (X i)) / raw.prime top : Int) := by
  intro result
  have topInside : top < raw.L + raw.K := by omega
  have lowInside : j < raw.L + raw.K := by omega
  have source : Modulus ((SetupConstants raw).primes top) := generated.modulus topInside
  have target : Modulus ((SetupConstants raw).primes j) := generated.modulus lowInside
  let switched := fun i => (SetupConstants raw).SwitchModulus top j (y i)
  have words : ∀ slot, slot < raw.N → result slot < raw.prime j ∧
      (result slot : ZMod (raw.prime j)) = (SetupConstants raw).q_inv top j *
        (x slot - (SetupConstants raw).NTT j switched slot) := by
    intro slot bound
    have second : (SetupConstants raw).NTT j switched slot < raw.prime j :=
      Constants.NTT_lt target.pos _ slot
    have written : result slot = rescale_fusion (SetupConstants raw) algo_ j top x
        ((SetupConstants raw).NTT j switched) slot := launch_inside _ old bound
    rw [written]
    exact rescale_fusion_cast generated lowInside algo_ (reduced slot bound) second
  intro i bound
  refine ⟨(words i bound).1, ?_⟩
  have transformed : ∀ slot, slot < raw.N → (result slot : ZMod (raw.prime j)) =
      NegacyclicTransform.forward (raw.root j : ZMod (raw.prime j)) (raw.logN - 1)
        (fun i => (SetupConstants raw).q_inv top j *
          (residues (raw.prime j) ((SetupConstants raw).INTT j x) i -
            residues (raw.prime j) switched i)) slot := by
    intro slot below
    have read := congrFun (@Constants.residues_NTT (SetupConstants raw) j target.pos switched) slot
    rw [NegacyclicTransform.forward_linear, forward_INTT generated lowInside, (words slot below).2]
    exact congrArg _ (congrArg _ read)
  have value := INTT_unique generated lowInside transformed bound
  have shifted : (switched i : ZMod (raw.prime j)) = centred (raw.prime top) (X i) := by
    have cast := SwitchModulus_cast source target (coefficients i bound)
    refine cast.trans ?_
    rw [centred, ← upper i bound]
    rfl
  rw [value, residues, residues, lower i bound, shifted]
  exact quotient_cast generated topInside lowInside inside.ne' (X i)

/-- The limbs of the result are fused with the transform of the switched top limb. -/
theorem rescale_divides (algo_ : ALGO) {poly : RNSPoly} (canonical : poly.Canonical raw)
    (room : 1 ≤ poly.level) {X : Nat → Int} (represents : poly.Represents raw X) :
    ∃ result, poly.rescale (SetupConstants raw) algo_ = some result ∧
      result.Divided raw poly X := by
  have regular := canonical.level
  have topInside : poly.level < raw.L + raw.K := by omega
  have topModulus : Modulus ((SetupConstants raw).primes poly.level) := generated.modulus topInside
  let coefficients := launch raw.N ((SetupConstants raw).INTT poly.level (poly.limb poly.level))
    (poly.limb poly.level)
  let loaded := fun i idx => (SetupConstants raw).SwitchModulus poly.level i (coefficients idx)
  let fused := fun i => launch raw.N (rescale_fusion (SetupConstants raw) algo_ i poly.level
    (poly.limb i) ((SetupConstants raw).NTT i (loaded i))) (poly.limb i)
  have returned : poly.rescale (SetupConstants raw) algo_ = some { poly with
      level := poly.level - 1
      limb := onLimbs poly.level fused (Function.update poly.limb poly.level coefficients) } :=
    if_pos (show poly.level + 1 > 1 by omega)
  have written : ∀ i, i < raw.N →
      coefficients i = (SetupConstants raw).INTT poly.level (poly.limb poly.level) i :=
    fun i bound => launch_inside _ _ bound
  have small : ∀ i, i < raw.N → coefficients i < raw.prime poly.level := by
    intro i bound
    rw [written i bound]
    exact Constants.INTT_lt topModulus.pos _ i
  have upper : ∀ i, i < raw.N → (coefficients i : ZMod (raw.prime poly.level)) = X i := by
    intro i bound
    rw [written i bound]
    exact represents poly.level le_rfl i bound
  have words : ∀ j, j ≤ poly.level - 1 → ∀ i, i < raw.N → fused j i < raw.prime j ∧
      ((SetupConstants raw).INTT j (fused j) i : ZMod (raw.prime j)) =
        ((X i - centred (raw.prime poly.level) (X i)) / raw.prime poly.level : Int) := by
    intro j low
    have inside : j < poly.level := by omega
    have reduced : ∀ i, i < raw.N → poly.limb j i < raw.prime j := by
      intro i bound
      rw [raw.prime_q (by omega)]
      exact canonical.limb j (by omega) i bound
    exact rescale_limb generated algo_ regular inside reduced small (represents j (by omega)) upper
  refine ⟨_, returned, Nat.sub_add_cancel room, ?_, ?_⟩
  · intro j low i bound
    dsimp only at low ⊢
    rw [onLimbs_inside _ _ (by omega)]
    exact (words j low i bound).1
  · intro j low i bound
    dsimp only at low ⊢
    rw [onLimbs_inside _ _ (by omega)]
    exact (words j low i bound).2

/-- The switch is the centred lift between any two primes, and the rescale is an exact division. -/
structure RescaleContract (raw : RawParams) : Prop where
  switches : ∀ om nm, om < raw.L + raw.K → nm < raw.L + raw.K → om ≠ nm →
    ∀ a, a < raw.prime om →
      (SetupConstants raw).SwitchModulus om nm a < raw.prime nm ∧
        ((SetupConstants raw).SwitchModulus om nm a : ZMod (raw.prime nm)) =
          centred (raw.prime om) a
  divides : ∀ (algo_ : ALGO) (poly : RNSPoly), poly.Canonical raw → 1 ≤ poly.level →
    ∀ X, poly.Represents raw X →
      ∃ result, poly.rescale (SetupConstants raw) algo_ = some result ∧ result.Divided raw poly X

theorem rescale_contract : RescaleContract raw where
  switches om nm old fresh _ a small := by
    have source : Modulus ((SetupConstants raw).primes om) := generated.modulus old
    have target : Modulus ((SetupConstants raw).primes nm) := generated.modulus fresh
    refine ⟨SwitchModulus_lt source target small, ?_⟩
    rw [centred, Int.cast_natCast]
    exact SwitchModulus_cast source target small
  divides algo_ _ canonical room _ represents :=
    rescale_divides generated algo_ canonical room represents

end Contract

theorem rescale_contract_small : RescaleContract smallParams :=
  rescale_contract smallParams_generated

end Fideslib.KeySwitch
