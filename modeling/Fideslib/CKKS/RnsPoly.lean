/-
This file models the polynomials of a ciphertext: one vector of residues for each prime.
-/

import Mathlib.Algebra.BigOperators.Fin
import Mathlib.Data.ZMod.ValMinAbs
import Mathlib.Tactic

namespace Fideslib.CKKS

inductive RescaleTechnique where
  | noRescale
  | fixedManual
  | fixedAuto
  | flexibleAuto
  | flexibleAutoExt
deriving DecidableEq, Repr

namespace RescaleTechnique

def isFlexible (technique : RescaleTechnique) : Bool :=
  technique = flexibleAuto || technique = flexibleAutoExt

def isAutomatic (technique : RescaleTechnique) : Bool :=
  technique = fixedAuto || technique = flexibleAuto || technique = flexibleAutoExt

theorem isAutomatic_iff {technique : RescaleTechnique} :
    technique.isAutomatic ↔ technique = fixedAuto ∨ technique.isFlexible := by
  cases technique <;> decide

theorem not_fixed_of_flexible {technique : RescaleTechnique} (flexible : technique.isFlexible) :
    ¬technique = fixedManual ∧ ¬technique = fixedAuto := by
  cases technique <;> revert flexible <;> decide

end RescaleTechnique

inductive Failure where
  | adjust (op : String) (level noiseLevel operandLevel operandNoiseLevel : Int)
      (operandKind : String)
  | noEvaluationKey (keyID : String)
  | assertion (condition : String)
  | openFHE (message : String)
  | exhausted
deriving DecidableEq, Repr

@[simp] theorem ok_bind {A B : Type} (value : A) (next : A → Except Failure B) :
    (Except.ok value >>= next) = next value := rfl

@[simp] theorem error_bind {A B : Type} (failure : Failure) (next : A → Except Failure B) :
    (Except.error failure >>= next) = .error failure := rfl

theorem bind_eq_ok {A B : Type} {outcome : Except Failure A} {next : A → Except Failure B}
    {result : B} :
    (outcome >>= next) = .ok result ↔ ∃ value, outcome = .ok value ∧ next value = .ok result := by
  cases outcome <;> simp

/-- This record holds what the ciphertexts read of their context. The primes of the special
limbs follow those of the chain, and `F` is the type of the scaling factors. -/
structure ContextData (F : Type) where
  rescaleTechnique : RescaleTechnique
  L : Int
  N : Nat
  prime : Nat → Nat
  prime_odd : ∀ id, prime id % 2 = 1
  /-- The transform evaluates a limb at these points. -/
  point : (id : Nat) → Fin N → ZMod (prime id)
  specialPrimeFactor : F
  ScalingFactorReal : Int → F
  ScalingFactorRealBig : Int → F
  ModReduceFactor : Int → F
  ElemForEvalMult : Int → F → (id : Nat) → ZMod (prime id)
  /-- A release build compiles the assertions out. -/
  asserts : Bool

variable {F : Type}

namespace ContextData

def check (cc : ContextData F) (condition : Prop) [Decidable condition] (text : String) :
    Except Failure Unit :=
  if cc.asserts ∧ ¬condition then .error (.assertion text) else .ok ()

theorem check_ok {cc : ContextData F} {condition : Prop} [Decidable condition] {text : String}
    (holds : condition) : cc.check condition text = .ok () := by
  simp [check, holds]

theorem check_eq_ok_iff {cc : ContextData F} {condition : Prop} [Decidable condition]
    {text : String} : cc.check condition text = .ok () ↔ (cc.asserts → condition) := by
  by_cases holds : condition <;> cases on : cc.asserts <;> simp [check, holds, on]

instance (cc : ContextData F) (id : Nat) : NeZero (cc.prime id) :=
  ⟨fun zero => by simpa [zero] using cc.prime_odd id⟩

def ntt (cc : ContextData F) (id : Nat) (x : Fin cc.N → ZMod (cc.prime id)) :
    Fin cc.N → ZMod (cc.prime id) :=
  fun k => ∑ j, x j * cc.point id k ^ j.val

def intt (cc : ContextData F) (id : Nat) (x : Fin cc.N → ZMod (cc.prime id)) :
    Fin cc.N → ZMod (cc.prime id) :=
  fun j => (cc.N : ZMod (cc.prime id))⁻¹ * ∑ k, x k * (cc.point id k)⁻¹ ^ j.val

theorem ntt_neg (cc : ContextData F) (id : Nat) (x : Fin cc.N → ZMod (cc.prime id)) :
    cc.ntt id (-x) = -cc.ntt id x := by
  funext k
  simp [ntt, Finset.sum_neg_distrib]

theorem intt_neg (cc : ContextData F) (id : Nat) (x : Fin cc.N → ZMod (cc.prime id)) :
    cc.intt id (-x) = -cc.intt id x := by
  funext j
  simp [intt, Finset.sum_neg_distrib]

end ContextData

/-- This moves a residue of `om` to `nm` through the representative closest to zero. -/
def switchModulus {om : Nat} (nm : Nat) (a : ZMod om) : ZMod nm :=
  let halfQ := om / 2
  if nm > om then
    let diff := nm - om
    ((if a.val > halfQ then a.val + diff else a.val : Nat) : ZMod nm)
  else
    let diff := nm - om % nm
    let moved := if a.val > halfQ then a.val + diff else a.val
    ((if moved ≥ nm then moved % nm else moved : Nat) : ZMod nm)

theorem switchModulus_eq_valMinAbs {om nm : Nat} [NeZero om] [NeZero nm] (a : ZMod om) :
    switchModulus nm a = (a.valMinAbs : ZMod nm) := by
  have positive : 0 < nm := Nat.pos_of_ne_zero (NeZero.ne nm)
  rw [ZMod.valMinAbs_def_pos]
  unfold switchModulus
  by_cases low : a.val ≤ om / 2
  · have notHigh : ¬a.val > om / 2 := Nat.not_lt.mpr low
    simp only [notHigh, low, if_true, if_false, Int.cast_natCast]
    split_ifs <;> simp
  · have high : a.val > om / 2 := Nat.lt_of_not_le low
    simp only [high, low, if_true, if_false, Int.cast_sub, Int.cast_natCast]
    by_cases wider : nm > om
    · simp [wider, Nat.cast_sub wider.le, sub_eq_add_neg]
    · have below : om % nm ≤ nm := (Nat.mod_lt om positive).le
      simp only [wider, if_false]
      split_ifs <;> simp [Nat.cast_sub below, sub_eq_add_neg]

/-- An odd modulus has no residue halfway, so the switch keeps signs. -/
theorem switchModulus_neg {om nm : Nat} [NeZero nm] (odd : om % 2 = 1) (a : ZMod om) :
    switchModulus nm (-a) = -switchModulus nm a := by
  have : NeZero om := ⟨fun zero => by simp [zero] at odd⟩
  have notHalf : 2 * a.val ≠ om := by omega
  rw [switchModulus_eq_valMinAbs, switchModulus_eq_valMinAbs,
    ZMod.valMinAbs_neg_of_ne_half notHalf, Int.cast_neg]

/-- A polynomial keeps limbs above its level, but no operation reads them. -/
structure RNSPoly (cc : ContextData F) where
  level : Int
  limb : (id : Nat) → Fin cc.N → ZMod (cc.prime id)

namespace RNSPoly

variable {cc : ContextData F}

def dropToLevel (poly : RNSPoly cc) (level : Int) : RNSPoly cc :=
  { poly with level := if poly.level > level then level else poly.level }

/-- This applies one map to each limb up to the level. -/
def mapLimbs (poly : RNSPoly cc)
    (change : (id : Nat) → (Fin cc.N → ZMod (cc.prime id)) → Fin cc.N → ZMod (cc.prime id)) :
    RNSPoly cc :=
  { poly with
    limb := fun id => if (id : Int) ≤ poly.level then change id (poly.limb id) else poly.limb id }

def multScalar (poly : RNSPoly cc) (vector : (id : Nat) → ZMod (cc.prime id)) : RNSPoly cc :=
  poly.mapLimbs fun id limb => fun k => limb k * vector id

/-- The caller checks that the other polynomial has no fewer limbs. -/
def add (poly p : RNSPoly cc) : RNSPoly cc := poly.mapLimbs fun id limb => limb + p.limb id

def sub (poly p : RNSPoly cc) : RNSPoly cc := poly.mapLimbs fun id limb => limb - p.limb id

/-- The top limb is subtracted from every limb up to the new level and divided out. -/
def rescaleTo (poly : RNSPoly cc) (level : Int) : RNSPoly cc where
  level := level
  limb := fun id =>
    if (id : Int) ≤ level then
      let top := poly.level.toNat
      let coefficients := cc.intt top (poly.limb top)
      let switched := cc.ntt id fun k => switchModulus (cc.prime id) (coefficients k)
      fun k => (poly.limb id k - switched k) * (cc.prime top : ZMod (cc.prime id))⁻¹
    else poly.limb id

def rescale (poly : RNSPoly cc) : RNSPoly cc := poly.rescaleTo (poly.level - 1)

/-- A rescale at the extra level drops two levels. -/
def rescaledLevel (cc : ContextData F) (level : Int) : Int :=
  level - (1 + if level = cc.L + 1 ∧ cc.rescaleTechnique = .flexibleAutoExt then 1 else 0)

/-- Both polynomials of a ciphertext are rescaled by this function. -/
def rescaleDouble (poly : RNSPoly cc) : RNSPoly cc :=
  poly.rescaleTo (rescaledLevel cc poly.level)

/-- Both halves of the product accumulate limb by limb. -/
def binomialMult (c0 c1 d0 d1 : RNSPoly cc) : RNSPoly cc × RNSPoly cc × RNSPoly cc :=
  (c0.mapLimbs fun id limb => limb * d0.limb id,
    c1.mapLimbs fun id limb => c0.limb id * d1.limb id + limb * d0.limb id,
    c1.mapLimbs fun id limb => limb * d1.limb id)

/-- The kernel of the square doubles one mixed product. -/
def binomialSquare (c0 c1 : RNSPoly cc) : RNSPoly cc × RNSPoly cc × RNSPoly cc :=
  (c0.mapLimbs fun _ limb => limb * limb,
    c1.mapLimbs fun id limb => c0.limb id * limb + c0.limb id * limb,
    c1.mapLimbs fun _ limb => limb * limb)

theorem binomialSquare_eq (c0 c1 : RNSPoly cc) :
    binomialSquare c0 c1 = binomialMult c0 c1 c0 c1 := by
  refine Prod.ext rfl (Prod.ext ?_ rfl)
  simp only [binomialSquare, binomialMult, mapLimbs]
  congr 1
  funext id
  split_ifs
  · rw [mul_comm (c1.limb id)]
  · rfl

end RNSPoly
end Fideslib.CKKS
