/-
This file proves that the adjustment of two operands always succeeds in one direction.
-/

import Fideslib.CKKS.Operations

namespace Fideslib.CKKS
namespace Ciphertext

variable {F : Type} {cc : ContextData F}

/-- A valid ciphertext lies on the modulus chain, and an automatic technique keeps its degree at
one or two. -/
structure Valid (operand : Ciphertext cc) : Prop where
  level_nonneg : 0 ≤ operand.getLevel
  level_le : operand.getLevel ≤ cc.L
  degree : cc.rescaleTechnique.isAutomatic → operand.NoiseLevel = 1 ∨ operand.NoiseLevel = 2

/-- A ciphertext can only give up limbs and gain degree. -/
def CanReach (self : Ciphertext cc) (scaleDegree level : Int) : Prop :=
  level < self.getLevel ∨ self.getLevel = level ∧ self.NoiseLevel ≤ scaleDegree

/-- This relation holds between an operand and a form of it with the given degree and level. -/
structure AdjustedTo (scaleDegree level : Int) (operand result : Ciphertext cc) : Prop where
  level : result.getLevel = level
  degree : result.NoiseLevel = scaleDegree
  slots : result.slots = operand.slots
  keyID : result.keyID = operand.keyID

variable {self moved : Ciphertext cc} {degree scaleDegree level lower : Int}

/-- A rescale on the chain drops exactly one level. -/
theorem rescaledLevel_of_le (inside : level ≤ cc.L) :
    RNSPoly.rescaledLevel cc level = level - 1 := by
  have below : level ≠ cc.L + 1 := by omega
  simp [RNSPoly.rescaledLevel, below]

theorem dropPolys_of_le (low : self.getLevel ≤ level) : self.dropPolys level = self := by
  have first : ¬self.c0.level > level := not_lt.mpr low
  have second : ¬self.c1.level > level := by
    rw [self.sameLevel]
    exact first
  simp only [dropPolys, RNSPoly.dropToLevel, first, second, if_false]

namespace AdjustedTo

theorem start (self : Ciphertext cc) : AdjustedTo self.NoiseLevel self.getLevel self self :=
  ⟨rfl, rfl, rfl, rfl⟩

theorem congr {otherDegree otherLevel : Int} (past : AdjustedTo degree level self moved)
    (sameDegree : degree = otherDegree) (equalLevel : level = otherLevel) :
    AdjustedTo otherDegree otherLevel self moved := by
  rw [← sameDegree, ← equalLevel]
  exact past

theorem withNoiseFactor (past : AdjustedTo degree level self moved) (factor : F) :
    AdjustedTo degree level self (moved.withNoiseFactor factor) :=
  ⟨past.level, past.degree, past.slots, past.keyID⟩

theorem multScalarNoPrecheck [Mul F] [Div F] (past : AdjustedTo degree level self moved) (c : F) :
    AdjustedTo (degree + 1) level self (moved.multScalarNoPrecheck c false) := by
  have raised : moved.NoiseLevel + 1 = degree + 1 := by rw [past.degree]
  exact ⟨past.level, raised, past.slots, past.keyID⟩

theorem raiseDegreeToLevel [Mul F] (past : AdjustedTo degree level self moved) (targetLevel : Int) :
    AdjustedTo (degree + 1) level self (moved.raiseDegreeToLevel targetLevel) := by
  have raised : moved.NoiseLevel + 1 = degree + 1 := by rw [past.degree]
  exact ⟨past.level, raised, past.slots, past.keyID⟩

theorem rescaleInternal [Div F] (past : AdjustedTo degree level self moved) (inside : level ≤ cc.L) :
    AdjustedTo (degree - 1) (level - 1) self moved.rescaleInternal := by
  have lowered : RNSPoly.rescaledLevel cc moved.getLevel = level - 1 := by
    rw [past.level, rescaledLevel_of_le inside]
  have reduced : moved.NoiseLevel - 1 = degree - 1 := by rw [past.degree]
  exact ⟨lowered, reduced, past.slots, past.keyID⟩

theorem dropPolys (past : AdjustedTo degree level self moved) (fewer : lower ≤ level) :
    AdjustedTo degree lower self (moved.dropPolys lower) := by
  have dropped : (if moved.c0.level > lower then lower else moved.c0.level) = lower := by
    have start : moved.c0.level = level := past.level
    split_ifs <;> omega
  exact ⟨dropped, past.degree, past.slots, past.keyID⟩

/-- A drop that stands behind a guard has the same effect. -/
theorem dropAbove (past : AdjustedTo degree level self moved) (fewer : lower ≤ level) :
    AdjustedTo degree lower self
      (if moved.getLevel > lower then moved.dropPolys lower else moved) := by
  by_cases above : moved.getLevel > lower
  · rw [if_pos above]
    exact past.dropPolys fewer
  · have start := past.level
    rw [if_neg above]
    exact past.congr rfl (by omega)

theorem dropAboveNext (past : AdjustedTo degree level self moved) (fewer : lower + 1 ≤ level) :
    AdjustedTo degree (lower + 1) self
      (if moved.getLevel - 1 > lower then moved.dropPolys (lower + 1) else moved) := by
  by_cases above : moved.getLevel - 1 > lower
  · rw [if_pos above]
    exact past.dropPolys fewer
  · have start := past.level
    rw [if_neg above]
    exact past.congr rfl (by omega)

end AdjustedTo

variable [Mul F] [Div F] [One F]

/-- Equal degrees need only a drop under the fixed technique, and a missing degree is raised. -/
theorem adjustScaleAndLevel_fixedAuto (technique : cc.rescaleTechnique = .fixedAuto)
    (valid : self.Valid) (requested : scaleDegree = 1 ∨ scaleDegree = 2) (scaling_factor : F)
    (reach : self.CanReach scaleDegree level) :
    ∃ result, self.adjustScaleAndLevel scaleDegree level scaling_factor = .ok (result, true) ∧
      AdjustedTo scaleDegree level self result := by
  have possible := valid.degree (by simp [technique, RescaleTechnique.isAutomatic])
  have first := AdjustedTo.start self
  unfold CanReach at reach
  by_cases same : self.NoiseLevel = scaleDegree
  · rw [same] at first
    by_cases higher : self.getLevel > level
    · refine ⟨self.dropPolys level, ?_, first.dropPolys higher.le⟩
      simp [adjustScaleAndLevel, technique, same, higher]
    · have equal : self.getLevel = level := by omega
      refine ⟨self, ?_, equal ▸ first⟩
      simp [adjustScaleAndLevel, technique, same, equal]
  · by_cases equal : self.getLevel = level
    · have below : self.NoiseLevel < scaleDegree := by omega
      have next : self.NoiseLevel + 1 = scaleDegree := by omega
      refine ⟨self.raiseDegreeToLevel level, ?_, ?_⟩
      · simp [adjustScaleAndLevel, technique, same, equal, below]
      · exact next ▸ equal ▸ first.raiseDegreeToLevel level
    · have higher : self.getLevel > level := by omega
      by_cases two : self.NoiseLevel = 2
      · have one : scaleDegree = 1 := by omega
        subst one
        rw [two] at first
        have reduced := first.rescaleInternal valid.level_le
        have fewer : level ≤ self.getLevel - 1 := by omega
        have dropped := reduced.dropAbove fewer
        refine ⟨_, ?_, dropped⟩
        simp [adjustScaleAndLevel, technique, equal, higher, two]
      · have one : self.NoiseLevel = 1 := by omega
        have target : scaleDegree = 2 := by omega
        subst target
        rw [one] at first
        have raised := first.raiseDegreeToLevel level
        have dropped := raised.dropAbove higher.le
        refine ⟨_, ?_, dropped⟩
        simp [adjustScaleAndLevel, technique, equal, higher, one]

/-- A lower target is reached through one scaled and rescaled form of the operand. -/
theorem adjustScaleAndLevel_flexible_lower (technique : cc.rescaleTechnique.isFlexible)
    (valid : self.Valid) (requested : scaleDegree = 1 ∨ scaleDegree = 2) (scaling_factor : F)
    (higher : level < self.getLevel) :
    ∃ result, self.adjustScaleAndLevel scaleDegree level scaling_factor = .ok (result, true) ∧
      AdjustedTo scaleDegree level self result := by
  have possible := valid.degree (RescaleTechnique.isAutomatic_iff.mpr (Or.inr technique))
  have inside := valid.level_le
  obtain ⟨notManual, notAuto⟩ := RescaleTechnique.not_fixed_of_flexible technique
  have first := AdjustedTo.start self
  rcases possible with one | two
  · rw [one] at first
    rcases requested with rfl | rfl
    · have raised := first.multScalarNoPrecheck (cc.ScalingFactorRealBig (level + 1) /
        self.NoiseFactor / cc.ScalingFactorReal self.getLevel)
      have fewer : level + 1 ≤ self.getLevel := by omega
      have dropped := raised.dropAboveNext fewer
      have reduced := fun factor => (dropped.withNoiseFactor factor).rescaleInternal (by omega)
      apply Exists.intro
      apply And.intro
      · simp only [adjustScaleAndLevel, notManual, notAuto, higher, one]
        rfl
      · exact ((reduced _).withNoiseFactor scaling_factor).congr (by omega) (by omega)
    · have raised := first.multScalarNoPrecheck
        (scaling_factor / self.NoiseFactor / cc.ScalingFactorReal self.getLevel)
      have dropped := raised.dropPolys higher.le
      refine ⟨_, ?_, (dropped.withNoiseFactor scaling_factor).congr (by omega) (by omega)⟩
      simp [adjustScaleAndLevel, notManual, notAuto, higher, one]
  · rw [two] at first
    rcases requested with rfl | rfl
    · by_cases next : self.getLevel - 1 = level
      · refine ⟨_, ?_, (first.rescaleInternal inside).congr (by omega) next⟩
        simp [adjustScaleAndLevel, notManual, notAuto, higher, two, next]
      · have raised := first.multScalarNoPrecheck (cc.ScalingFactorRealBig (level + 1) /
          self.NoiseFactor * cc.ModReduceFactor self.getLevel / cc.ScalingFactorReal self.getLevel)
        have reduced := (raised.withNoiseFactor (cc.ScalingFactorRealBig (self.getLevel - 1) *
          cc.ModReduceFactor self.getLevel)).rescaleInternal inside
        have fewer : level + 1 ≤ self.getLevel - 1 := by omega
        have dropped := reduced.dropAboveNext fewer
        have final := fun factor => (dropped.withNoiseFactor factor).rescaleInternal (by omega)
        apply Exists.intro
        apply And.intro
        · simp only [adjustScaleAndLevel, notManual, notAuto, higher, two, next]
          rfl
        · exact ((final _).withNoiseFactor scaling_factor).congr (by omega) (by omega)
    · have raised := first.multScalarNoPrecheck (scaling_factor / self.NoiseFactor *
        cc.ModReduceFactor self.getLevel / cc.ScalingFactorReal self.getLevel)
      have reduced := (raised.withNoiseFactor (cc.ScalingFactorRealBig (self.getLevel - 1) *
        cc.ModReduceFactor self.getLevel)).rescaleInternal inside
      have fewer : level ≤ self.getLevel - 1 := by omega
      have dropped := reduced.dropAbove fewer
      refine ⟨_, ?_, (dropped.withNoiseFactor scaling_factor).congr (by omega) rfl⟩
      simp only [adjustScaleAndLevel, notManual, notAuto, higher, two]
      rfl

theorem adjustScaleAndLevel_flexible_equal (technique : cc.rescaleTechnique.isFlexible)
    (valid : self.Valid) (requested : scaleDegree = 1 ∨ scaleDegree = 2) (scaling_factor : F)
    (equal : self.getLevel = level) (covered : self.NoiseLevel ≤ scaleDegree) :
    ∃ result, self.adjustScaleAndLevel scaleDegree level scaling_factor = .ok (result, true) ∧
      AdjustedTo scaleDegree level self result := by
  have possible := valid.degree (RescaleTechnique.isAutomatic_iff.mpr (Or.inr technique))
  obtain ⟨notManual, notAuto⟩ := RescaleTechnique.not_fixed_of_flexible technique
  have first := (AdjustedTo.start self).congr rfl equal
  by_cases same : self.NoiseLevel = scaleDegree
  · refine ⟨self, ?_, first.congr same rfl⟩
    simp [adjustScaleAndLevel, notManual, notAuto, equal, same]
  · have one : self.NoiseLevel = 1 := by omega
    have two : scaleDegree = 2 := by omega
    refine ⟨self.multScalarNoPrecheck 1 false, ?_, ?_⟩
    · have scaled : self.multScalar 1 false = .ok (self.multScalarNoPrecheck 1 false) := by
        simp [multScalar, one, ContextData.check_ok]
      simp [adjustScaleAndLevel, notManual, notAuto, equal, one, two, scaled]
    · exact (first.multScalarNoPrecheck 1).congr (by omega) rfl

/-- The adjustment succeeds whenever it only gives up limbs or gains degree. -/
theorem adjustScaleAndLevel_succeeds (automatic : cc.rescaleTechnique.isAutomatic)
    (valid : self.Valid) (requested : scaleDegree = 1 ∨ scaleDegree = 2) (scaling_factor : F)
    (reach : self.CanReach scaleDegree level) :
    ∃ result, self.adjustScaleAndLevel scaleDegree level scaling_factor = .ok (result, true) ∧
      AdjustedTo scaleDegree level self result := by
  rcases RescaleTechnique.isAutomatic_iff.mp automatic with fixed | flexible
  · exact adjustScaleAndLevel_fixedAuto fixed valid requested scaling_factor reach
  · rcases reach with higher | ⟨equal, covered⟩
    · exact adjustScaleAndLevel_flexible_lower flexible valid requested scaling_factor higher
    · exact adjustScaleAndLevel_flexible_equal flexible valid requested scaling_factor equal covered

/-- Otherwise the adjustment reports failure and changes nothing. -/
theorem adjustScaleAndLevel_fails (automatic : cc.rescaleTechnique.isAutomatic)
    (scaling_factor : F) (reach : ¬self.CanReach scaleDegree level) :
    self.adjustScaleAndLevel scaleDegree level scaling_factor = .ok (self, false) := by
  unfold CanReach at reach
  have short : self.getLevel = level ∧ scaleDegree < self.NoiseLevel ∨ self.getLevel < level := by omega
  rcases short with ⟨equal, above⟩ | fewer
  · have notBelow : ¬self.NoiseLevel < scaleDegree := by omega
    rcases RescaleTechnique.isAutomatic_iff.mp automatic with fixed | flexible
    · simp [adjustScaleAndLevel, fixed, equal, above.ne', notBelow]
    · obtain ⟨notManual, notAuto⟩ := RescaleTechnique.not_fixed_of_flexible flexible
      simp [adjustScaleAndLevel, notManual, notAuto, equal, notBelow, above]
  · have notHigher : ¬level < self.getLevel := by omega
    rcases RescaleTechnique.isAutomatic_iff.mp automatic with fixed | flexible
    · simp [adjustScaleAndLevel, fixed, fewer.ne, notHigher, fewer]
    · obtain ⟨notManual, notAuto⟩ := RescaleTechnique.not_fixed_of_flexible flexible
      simp [adjustScaleAndLevel, notManual, notAuto, notHigher, fewer]

/-- A target of the same level and degree needs no change. -/
theorem adjustScaleAndLevel_same (automatic : cc.rescaleTechnique.isAutomatic) (scaling_factor : F) :
    self.adjustScaleAndLevel self.NoiseLevel self.getLevel scaling_factor = .ok (self, true) := by
  rcases RescaleTechnique.isAutomatic_iff.mp automatic with fixed | flexible
  · simp [adjustScaleAndLevel, fixed]
  · obtain ⟨notManual, notAuto⟩ := RescaleTechnique.not_fixed_of_flexible flexible
    simp [adjustScaleAndLevel, notManual, notAuto]

omit [Mul F] [Div F] [One F] in
/-- Any two operands can be adjusted in one direction. -/
theorem canReach_total (self b : Ciphertext cc) :
    self.CanReach b.NoiseLevel b.getLevel ∨ b.CanReach self.NoiseLevel self.getLevel := by
  unfold CanReach
  omega

end Ciphertext
end Fideslib.CKKS
