/-
This file proves that the operations treat an operand and its negation alike.
-/

import Fideslib.CKKS.OperandAlignment

namespace Fideslib.CKKS

variable {F : Type} {cc : ContextData F} {sign : ℤˣ}

theorem ntt_signed (id : Nat) (x : Fin cc.N → ZMod (cc.prime id)) :
    cc.ntt id (sign • x) = sign • cc.ntt id x := by
  rcases Int.units_eq_one_or sign with rfl | rfl
  · simp only [one_smul]
  · simp only [Units.neg_smul, one_smul, cc.ntt_neg]

theorem intt_signed (id : Nat) (x : Fin cc.N → ZMod (cc.prime id)) :
    cc.intt id (sign • x) = sign • cc.intt id x := by
  rcases Int.units_eq_one_or sign with rfl | rfl
  · simp only [one_smul]
  · simp only [Units.neg_smul, one_smul, cc.intt_neg]

theorem switchModulus_signed {om nm : Nat} [NeZero nm] (odd : om % 2 = 1) (a : ZMod om) :
    switchModulus nm (sign • a) = sign • switchModulus nm a := by
  rcases Int.units_eq_one_or sign with rfl | rfl
  · simp only [one_smul]
  · simp only [Units.neg_smul, one_smul, switchModulus_neg odd]

namespace RNSPoly

/-- The limbs of the second polynomial are those of the first one, up to one common sign. -/
structure Signed (sign : ℤˣ) (poly other : RNSPoly cc) : Prop where
  level : other.level = poly.level
  limb : ∀ id : Nat, (id : Int) ≤ poly.level → other.limb id = sign • poly.limb id

namespace Signed

variable {poly other p q : RNSPoly cc}

theorem dropToLevel (related : Signed sign poly other) (level : Int) :
    Signed sign (poly.dropToLevel level) (other.dropToLevel level) where
  level := by simp only [RNSPoly.dropToLevel, related.level]
  limb := by
    intro id inside
    have fewer : (poly.dropToLevel level).level ≤ poly.level := by
      simp only [RNSPoly.dropToLevel]
      split_ifs <;> omega
    exact related.limb id (inside.trans fewer)

theorem multScalar (related : Signed sign poly other) (vector : (id : Nat) → ZMod (cc.prime id)) :
    Signed sign (poly.multScalar vector) (other.multScalar vector) where
  level := related.level
  limb := by
    intro id inside
    change (id : Int) ≤ poly.level at inside
    have same := related.limb id inside
    funext k
    simp only [RNSPoly.multScalar, mapLimbs, related.level, inside, if_true, same, Pi.smul_apply,
      smul_mul_assoc]

theorem rescaleDouble (related : Signed sign poly other) :
    Signed sign poly.rescaleDouble other.rescaleDouble := by
  obtain ⟨sameLevel, same⟩ := related
  obtain ⟨level, limb⟩ := other
  cases sameLevel
  refine ⟨rfl, ?_⟩
  intro id inside
  change (id : Int) ≤ rescaledLevel cc poly.level at inside
  have fewer : rescaledLevel cc poly.level ≤ poly.level - 1 := by
    unfold rescaledLevel
    split_ifs <;> omega
  have below : limb id = sign • poly.limb id := same id (by omega)
  have top : limb poly.level.toNat = sign • poly.limb poly.level.toNat := same _ (by omega)
  have switched : (fun k => switchModulus (cc.prime id)
        (cc.intt poly.level.toNat (sign • poly.limb poly.level.toNat) k)) =
      sign • fun k => switchModulus (cc.prime id)
        (cc.intt poly.level.toNat (poly.limb poly.level.toNat) k) := by
    funext k
    rw [intt_signed, Pi.smul_apply, switchModulus_signed (cc.prime_odd _)]
    rfl
  funext k
  simp only [RNSPoly.rescaleDouble, rescaleTo, inside, if_true, below, top, switched, ntt_signed, Pi.smul_apply,
    ← smul_sub, smul_mul_assoc]

/-- A subtraction is the addition of the negation. -/
theorem sub_add (related : Signed (-1) p q) (fewer : poly.level ≤ p.level) :
    Signed 1 (poly.sub p) (poly.add q) where
  level := rfl
  limb := by
    intro id inside
    change (id : Int) ≤ poly.level at inside
    have negated := related.limb id (inside.trans fewer)
    simp only [RNSPoly.add, RNSPoly.sub, mapLimbs, inside, if_true, negated, Units.neg_smul,
      one_smul, sub_eq_add_neg]

end Signed
end RNSPoly

namespace Ciphertext

/-- The two ciphertexts have one shape, and their limbs agree up to one common sign. -/
structure Signed (sign : ℤˣ) (operand other : Ciphertext cc) : Prop where
  c0 : operand.c0.Signed sign other.c0
  c1 : operand.c1.Signed sign other.c1
  NoiseLevel : other.NoiseLevel = operand.NoiseLevel
  NoiseFactor : other.NoiseFactor = operand.NoiseFactor
  slots : other.slots = operand.slots
  keyID : other.keyID = operand.keyID

variable {self other x y : Ciphertext cc}

theorem Signed.level (related : Signed sign self other) : other.getLevel = self.getLevel :=
  related.c0.level

/-- The negation multiplies each limb by one less than its prime. -/
theorem negate_signed (self : Ciphertext cc) : Signed (-1) self self.negate := by
  have minusOne : ∀ id, ((cc.prime id - 1 : Nat) : ZMod (cc.prime id)) = -1 := by
    intro id
    have positive : 1 ≤ cc.prime id := Nat.pos_of_ne_zero (NeZero.ne _)
    rw [Nat.cast_sub positive, ZMod.natCast_self, Nat.cast_one, zero_sub]
  have poly : ∀ p : RNSPoly cc, p.Signed (-1)
      (p.multScalar fun id => ((cc.prime id - 1 : Nat) : ZMod (cc.prime id))) := by
    intro p
    refine ⟨rfl, ?_⟩
    intro id inside
    funext k
    simp [RNSPoly.multScalar, RNSPoly.mapLimbs, inside, minusOne]
  exact ⟨poly self.c0, poly self.c1, rfl, rfl, rfl, rfl⟩

namespace Signed

theorem withNoiseFactor (related : Signed sign self other) (factor : F) :
    Signed sign (self.withNoiseFactor factor) (other.withNoiseFactor factor) :=
  { related with NoiseFactor := rfl }

theorem rescaleInternal [Div F] (related : Signed sign self other) :
    Signed sign self.rescaleInternal other.rescaleInternal where
  c0 := related.c0.rescaleDouble
  c1 := related.c1.rescaleDouble
  NoiseLevel := congrArg (· - 1) related.NoiseLevel
  NoiseFactor := by
    simp only [Ciphertext.rescaleInternal, withNoise, related.NoiseFactor, related.level]
  slots := related.slots
  keyID := related.keyID

theorem multScalarNoPrecheck [Mul F] [Div F] (related : Signed sign self other) (c : F) :
    Signed sign (self.multScalarNoPrecheck c false) (other.multScalarNoPrecheck c false) := by
  have vector : cc.ElemForEvalMult other.getLevel c = cc.ElemForEvalMult self.getLevel c := by
    rw [related.level]
  refine ⟨?_, ?_, ?_, ?_, related.slots, related.keyID⟩
  · change self.c0.multScalar _ |>.Signed sign (other.c0.multScalar _)
    rw [vector]
    exact related.c0.multScalar _
  · change self.c1.multScalar _ |>.Signed sign (other.c1.multScalar _)
    rw [vector]
    exact related.c1.multScalar _
  · exact congrArg (· + 1) related.NoiseLevel
  · simp [Ciphertext.multScalarNoPrecheck, withNoise, related.NoiseFactor, related.level]

theorem raiseDegreeToLevel [Mul F] (related : Signed sign self other) (targetLevel : Int) :
    Signed sign (self.raiseDegreeToLevel targetLevel) (other.raiseDegreeToLevel targetLevel) where
  c0 := related.c0.multScalar _
  c1 := related.c1.multScalar _
  NoiseLevel := congrArg (· + 1) related.NoiseLevel
  NoiseFactor := by
    simp only [Ciphertext.raiseDegreeToLevel, withNoise, related.NoiseFactor, related.level]
  slots := related.slots
  keyID := related.keyID

theorem dropPolys (related : Signed sign self other) (level : Int) :
    Signed sign (self.dropPolys level) (other.dropPolys level) :=
  { related with c0 := related.c0.dropToLevel level, c1 := related.c1.dropToLevel level }

theorem ite (condition : Prop) [Decidable condition] {left right : Ciphertext cc}
    (related : Signed sign self other) (second : Signed sign left right) :
    Signed sign (if condition then self else left) (if condition then other else right) := by
  split_ifs
  · exact related
  · exact second

theorem dropAbove (related : Signed sign self other) (level : Int) :
    Signed sign (if self.getLevel > level then self.dropPolys level else self)
      (if other.getLevel > level then other.dropPolys level else other) := by
  rw [related.level]
  exact (related.dropPolys level).ite _ related

theorem dropAboveNext (related : Signed sign self other) (level : Int) :
    Signed sign (if self.getLevel - 1 > level then self.dropPolys (level + 1) else self)
      (if other.getLevel - 1 > level then other.dropPolys (level + 1) else other) := by
  rw [related.level]
  exact (related.dropPolys (level + 1)).ite _ related

end Signed

/-- Both operations succeed with related results and one flag, or they fail alike. -/
inductive SignedOutcome (sign : ℤˣ) :
    Except Failure (Ciphertext cc × Bool) → Except Failure (Ciphertext cc × Bool) → Prop
  | ok {x y : Ciphertext cc} (related : Signed sign x y) (flag : Bool) :
      SignedOutcome sign (.ok (x, flag)) (.ok (y, flag))
  | error (failure : Failure) : SignedOutcome sign (.error failure) (.error failure)

namespace SignedOutcome

theorem ite {first second third fourth : Except Failure (Ciphertext cc × Bool)} (condition : Prop)
    [Decidable condition] (holds : SignedOutcome sign first second)
    (fails : SignedOutcome sign third fourth) :
    SignedOutcome sign (if condition then first else third)
      (if condition then second else fourth) := by
  split_ifs
  · exact holds
  · exact fails

theorem of_ok {outcome : Except Failure (Ciphertext cc × Bool)} {flag : Bool}
    (related : SignedOutcome sign (.ok (x, flag)) outcome) :
    ∃ y, outcome = .ok (y, flag) ∧ Signed sign x y := by
  cases related with
  | ok same flag => exact ⟨_, rfl, same⟩

theorem multScalar [Mul F] [Div F] (related : Signed sign self other) (c : F) :
    SignedOutcome sign (do return (← self.multScalar c false, true))
      (do return (← other.multScalar c false, true)) := by
  have ready := related.rescaleInternal.ite
    (cc.rescaleTechnique.isAutomatic ∧ self.NoiseLevel = 2) related
  simp only [Ciphertext.multScalar, related.NoiseLevel, ready.NoiseLevel, Bool.false_eq_true,
    false_and, decide_false]
  cases cc.check ((if cc.rescaleTechnique.isAutomatic = true ∧ self.NoiseLevel = 2 then
      self.rescaleInternal else self).NoiseLevel = 1) "this->NoiseLevel == 1" with
  | error failure => exact .error failure
  | ok _ => exact .ok (ready.multScalarNoPrecheck c) true

variable [Mul F] [Div F] [One F]

/-- The adjustment takes the same branches for both operands. -/
theorem adjustScaleAndLevel (related : Signed sign self other) (scaleDegree level : Int)
    (scaling_factor : F) :
    SignedOutcome sign (self.adjustScaleAndLevel scaleDegree level scaling_factor)
      (other.adjustScaleAndLevel scaleDegree level scaling_factor) := by
  unfold Ciphertext.adjustScaleAndLevel
  simp only [related.level, related.NoiseLevel, related.NoiseFactor]
  apply ite
  · exact (ok (related.dropPolys level) true).ite _ ((ok related false).ite _ (ok related true))
  apply ite
  · apply ite
    · exact (ok (related.raiseDegreeToLevel level) true).ite _ (ok related false)
    · have moved := related.rescaleInternal.ite (self.NoiseLevel = 2)
        (related.raiseDegreeToLevel level)
      exact (ok (moved.dropAbove level) true).ite _ (ok related false)
  apply ite
  · apply ite
    · apply ite
      · have scaled := related.multScalarNoPrecheck
          (scaling_factor / self.NoiseFactor * cc.ModReduceFactor self.getLevel /
            cc.ScalingFactorReal self.getLevel)
        rw [scaled.level]
        have lowered := fun factor =>
          (scaled.withNoiseFactor factor).rescaleInternal.dropAbove level
        exact ok ((lowered _).withNoiseFactor scaling_factor) true
      · apply ite
        · exact ok related.rescaleInternal true
        · have scaled := related.multScalarNoPrecheck
            (cc.ScalingFactorRealBig (level + 1) / self.NoiseFactor *
              cc.ModReduceFactor self.getLevel / cc.ScalingFactorReal self.getLevel)
          rw [scaled.level]
          have lowered := fun factor =>
            (scaled.withNoiseFactor factor).rescaleInternal.dropAboveNext level
          rw [(lowered _).level]
          exact ok (((lowered _).withNoiseFactor _).rescaleInternal.withNoiseFactor
            scaling_factor) true
    · apply ite
      · have scaled := related.multScalarNoPrecheck
          (scaling_factor / self.NoiseFactor / cc.ScalingFactorReal self.getLevel)
        exact ok ((scaled.dropPolys level).withNoiseFactor scaling_factor) true
      · have scaled := related.multScalarNoPrecheck
          (cc.ScalingFactorRealBig (level + 1) / self.NoiseFactor /
            cc.ScalingFactorReal self.getLevel)
        have lowered := (scaled.dropPolys (level + 1)).ite (self.getLevel - 1 > level) scaled
        rw [lowered.NoiseFactor]
        exact ok ((lowered.withNoiseFactor _).rescaleInternal.withNoiseFactor scaling_factor) true
  · apply ite
    · exact ok related false
    · apply ite
      · exact multScalar related 1
      · exact (ok related false).ite _ (ok related true)

end SignedOutcome
end Ciphertext
end Fideslib.CKKS
