/-
This file proves that a plaintext can be adjusted wherever a ciphertext cannot.
-/

import Fideslib.CKKS.MutableForms

namespace Fideslib.CKKS
namespace Plaintext

variable {F : Type} {cc : ContextData F}

/-- A plaintext can only give up limbs and gain degree. -/
def CanReach (self : Plaintext cc) (scaleDegree level : Int) : Prop :=
  level < self.c0.level ∨ self.c0.level = level ∧ self.NoiseLevel ≤ scaleDegree

/-- This relation holds between a plaintext and a form of it with the given degree and level. -/
structure AdjustedTo (scaleDegree level : Int) (operand result : Plaintext cc) : Prop where
  level : result.c0.level = level
  degree : result.NoiseLevel = scaleDegree
  slots : result.slots = operand.slots

variable {self moved : Plaintext cc} {degree scaleDegree level lower : Int}

namespace AdjustedTo

theorem start (self : Plaintext cc) : AdjustedTo self.NoiseLevel self.c0.level self self :=
  ⟨rfl, rfl, rfl⟩

theorem congr {otherDegree otherLevel : Int} (past : AdjustedTo degree level self moved)
    (sameDegree : degree = otherDegree) (equalLevel : level = otherLevel) :
    AdjustedTo otherDegree otherLevel self moved := by
  rw [← sameDegree, ← equalLevel]
  exact past

theorem withNoiseFactor (past : AdjustedTo degree level self moved) (factor : F) :
    AdjustedTo degree level self { moved with NoiseFactor := factor } :=
  ⟨past.level, past.degree, past.slots⟩

theorem multScalar [Mul F] (past : AdjustedTo degree level self moved) (c : F) :
    AdjustedTo (degree + 1) level self (moved.multScalar c) := by
  have raised : moved.NoiseLevel + 1 = degree + 1 := by rw [past.degree]
  exact ⟨past.level, raised, past.slots⟩

theorem raiseDegreeToLevel [Mul F] (past : AdjustedTo degree level self moved) (targetLevel : Int) :
    AdjustedTo (degree + 1) level self (moved.raiseDegreeToLevel targetLevel) := by
  have raised : moved.NoiseLevel + 1 = degree + 1 := by rw [past.degree]
  exact ⟨past.level, raised, past.slots⟩

/-- A rescale needs a degree of two, and it drops one level. -/
theorem rescale [Div F] (past : AdjustedTo degree level self moved) (enough : 2 ≤ degree) :
    ∃ result, moved.rescale = .ok result ∧ AdjustedTo (degree - 1) (level - 1) self result := by
  have large : moved.NoiseLevel ≥ 2 := by rw [past.degree]; exact enough
  have lowered : moved.c0.level - 1 = level - 1 := by rw [past.level]
  have reduced : moved.NoiseLevel - 1 = degree - 1 := by rw [past.degree]
  have rescaled : moved.rescale = .ok { moved with
      c0 := moved.c0.rescale
      NoiseLevel := moved.NoiseLevel - 1
      NoiseFactor := moved.NoiseFactor / cc.ModReduceFactor moved.c0.level } := by
    rw [Plaintext.rescale, ContextData.check_ok large]
    rfl
  exact ⟨_, rescaled, lowered, reduced, past.slots⟩

theorem dropPoly (past : AdjustedTo degree level self moved) (fewer : lower ≤ level) :
    AdjustedTo degree lower self (moved.dropPoly lower) := by
  have dropped : (if moved.c0.level > lower then lower else moved.c0.level) = lower := by
    have start := past.level
    split_ifs <;> omega
  exact ⟨dropped, past.degree, past.slots⟩

/-- A drop that stands behind a guard has the same effect. -/
theorem dropAbove (past : AdjustedTo degree level self moved) (fewer : lower ≤ level) :
    AdjustedTo degree lower self
      (if moved.c0.level > lower then moved.dropPoly lower else moved) := by
  by_cases above : moved.c0.level > lower
  · rw [if_pos above]
    exact past.dropPoly fewer
  · have start := past.level
    rw [if_neg above]
    exact past.congr rfl (by omega)

end AdjustedTo

variable [Mul F] [Div F] [One F]

/-- Equal degrees need only a drop under the fixed technique, and a missing degree is raised. -/
theorem adjustScaleAndLevel_fixedAuto (technique : cc.rescaleTechnique = .fixedAuto)
    (possible : self.NoiseLevel = 1 ∨ self.NoiseLevel = 2)
    (requested : scaleDegree = 1 ∨ scaleDegree = 2) (scaling_factor : F)
    (reach : self.CanReach scaleDegree level) :
    ∃ result, self.adjustScaleAndLevel scaleDegree level scaling_factor = .ok (result, true) ∧
      AdjustedTo scaleDegree level self result := by
  have first := AdjustedTo.start self
  unfold CanReach at reach
  by_cases same : self.NoiseLevel = scaleDegree
  · rw [same] at first
    by_cases higher : self.c0.level > level
    · refine ⟨self.dropPoly level, ?_, first.dropPoly higher.le⟩
      simp [adjustScaleAndLevel, technique, same, higher]
    · have equal : self.c0.level = level := by omega
      refine ⟨self, ?_, equal ▸ first⟩
      simp [adjustScaleAndLevel, technique, same, equal]
  · by_cases equal : self.c0.level = level
    · have below : self.NoiseLevel < scaleDegree := by omega
      have next : self.NoiseLevel + 1 = scaleDegree := by omega
      refine ⟨self.raiseDegreeToLevel level, ?_, ?_⟩
      · simp [adjustScaleAndLevel, technique, same, equal, below]
      · exact next ▸ equal ▸ first.raiseDegreeToLevel level
    · have higher : self.c0.level > level := by omega
      by_cases two : self.NoiseLevel = 2
      · have one : scaleDegree = 1 := by omega
        subst one
        rw [two] at first
        obtain ⟨reduced, rescaled, next⟩ := first.rescale le_rfl
        have fewer : level ≤ self.c0.level - 1 := by omega
        refine ⟨_, ?_, next.dropAbove fewer⟩
        simp [adjustScaleAndLevel, technique, equal, higher, two, rescaled]
      · have one : self.NoiseLevel = 1 := by omega
        have target : scaleDegree = 2 := by omega
        subst target
        rw [one] at first
        have raised := first.raiseDegreeToLevel level
        refine ⟨_, ?_, raised.dropAbove higher.le⟩
        simp [adjustScaleAndLevel, technique, equal, higher, one]
        rfl

/-- A lower target is reached through one scaled and rescaled form of the plaintext. -/
theorem adjustScaleAndLevel_flexible_lower (technique : cc.rescaleTechnique.isFlexible)
    (possible : self.NoiseLevel = 1 ∨ self.NoiseLevel = 2)
    (requested : scaleDegree = 1 ∨ scaleDegree = 2) (scaling_factor : F)
    (higher : level < self.c0.level) :
    ∃ result, self.adjustScaleAndLevel scaleDegree level scaling_factor = .ok (result, true) ∧
      AdjustedTo scaleDegree level self result := by
  obtain ⟨notManual, notAuto⟩ := RescaleTechnique.not_fixed_of_flexible technique
  have first := AdjustedTo.start self
  rcases possible with one | two
  · rw [one] at first
    rcases requested with rfl | rfl
    · have raised := first.multScalar (cc.ScalingFactorRealBig (level + 1) / self.NoiseFactor /
        cc.ScalingFactorReal self.c0.level)
      by_cases further : self.c0.level - 1 > level
      · obtain ⟨final, rescaled, next⟩ :=
          (raised.dropPoly (show level + 1 ≤ self.c0.level by omega)).rescale le_rfl
        refine ⟨_, ?_, (next.withNoiseFactor scaling_factor).congr (by omega) (by omega)⟩
        simp [adjustScaleAndLevel, notManual, notAuto, higher, one, further, rescaled]
      · obtain ⟨final, rescaled, next⟩ := raised.rescale le_rfl
        refine ⟨_, ?_, (next.withNoiseFactor scaling_factor).congr (by omega) (by omega)⟩
        simp [adjustScaleAndLevel, notManual, notAuto, higher, one, further, rescaled]
    · have raised := first.multScalar
        (scaling_factor / self.NoiseFactor / cc.ScalingFactorReal self.c0.level)
      have dropped := raised.dropPoly higher.le
      refine ⟨_, ?_, (dropped.withNoiseFactor scaling_factor).congr (by omega) (by omega)⟩
      simp [adjustScaleAndLevel, notManual, notAuto, higher, one]
  · rw [two] at first
    rcases requested with rfl | rfl
    · by_cases next : self.c0.level - 1 = level
      · obtain ⟨final, rescaled, reached⟩ := first.rescale le_rfl
        refine ⟨_, ?_, reached.congr (by omega) next⟩
        simp [adjustScaleAndLevel, notManual, notAuto, higher, two, next, rescaled]
      · have raised := first.multScalar (cc.ScalingFactorRealBig (level + 1) / self.NoiseFactor *
          cc.ModReduceFactor self.c0.level / cc.ScalingFactorReal self.c0.level)
        obtain ⟨reduced, rescaled, lowered⟩ := raised.rescale (by omega)
        by_cases further : reduced.c0.level - 1 > level
        · obtain ⟨final, again, reached⟩ :=
            (lowered.dropPoly (show level + 1 ≤ self.c0.level - 1 by omega)).rescale (by omega)
          refine ⟨_, ?_, (reached.withNoiseFactor scaling_factor).congr (by omega) (by omega)⟩
          simp [adjustScaleAndLevel, notManual, notAuto, higher, two, next, rescaled, further,
            again]
        · have last := lowered.level
          obtain ⟨final, again, reached⟩ := lowered.rescale (by omega)
          refine ⟨_, ?_, (reached.withNoiseFactor scaling_factor).congr (by omega) (by omega)⟩
          simp [adjustScaleAndLevel, notManual, notAuto, higher, two, next, rescaled, further,
            again]
    · have raised := first.multScalar (scaling_factor / self.NoiseFactor *
        cc.ModReduceFactor self.c0.level / cc.ScalingFactorReal self.c0.level)
      obtain ⟨reduced, rescaled, lowered⟩ := raised.rescale (by omega)
      have dropped := lowered.dropAbove (show level ≤ self.c0.level - 1 by omega)
      refine ⟨_, ?_, (dropped.withNoiseFactor scaling_factor).congr (by omega) rfl⟩
      simp [adjustScaleAndLevel, notManual, notAuto, higher, two, rescaled]

theorem adjustScaleAndLevel_flexible_equal (technique : cc.rescaleTechnique.isFlexible)
    (possible : self.NoiseLevel = 1 ∨ self.NoiseLevel = 2)
    (requested : scaleDegree = 1 ∨ scaleDegree = 2) (scaling_factor : F)
    (equal : self.c0.level = level) (covered : self.NoiseLevel ≤ scaleDegree) :
    ∃ result, self.adjustScaleAndLevel scaleDegree level scaling_factor = .ok (result, true) ∧
      AdjustedTo scaleDegree level self result := by
  obtain ⟨notManual, notAuto⟩ := RescaleTechnique.not_fixed_of_flexible technique
  have first := (AdjustedTo.start self).congr rfl equal
  by_cases same : self.NoiseLevel = scaleDegree
  · refine ⟨self, ?_, first.congr same rfl⟩
    simp [adjustScaleAndLevel, notManual, notAuto, equal, same]
  · have one : self.NoiseLevel = 1 := by omega
    have two : scaleDegree = 2 := by omega
    refine ⟨self.multScalar 1, ?_, (first.multScalar 1).congr (by omega) rfl⟩
    simp [adjustScaleAndLevel, notManual, notAuto, equal, one, two]

/-- The adjustment succeeds whenever it only gives up limbs or gains degree. -/
theorem adjustScaleAndLevel_succeeds (automatic : cc.rescaleTechnique.isAutomatic)
    (possible : self.NoiseLevel = 1 ∨ self.NoiseLevel = 2)
    (requested : scaleDegree = 1 ∨ scaleDegree = 2) (scaling_factor : F)
    (reach : self.CanReach scaleDegree level) :
    ∃ result, self.adjustScaleAndLevel scaleDegree level scaling_factor = .ok (result, true) ∧
      AdjustedTo scaleDegree level self result := by
  rcases RescaleTechnique.isAutomatic_iff.mp automatic with fixed | flexible
  · exact adjustScaleAndLevel_fixedAuto fixed possible requested scaling_factor reach
  · rcases reach with higher | ⟨equal, covered⟩
    · exact adjustScaleAndLevel_flexible_lower flexible possible requested scaling_factor higher
    · exact adjustScaleAndLevel_flexible_equal flexible possible requested scaling_factor equal
        covered

/-- Otherwise the adjustment reports failure and changes nothing. -/
theorem adjustScaleAndLevel_fails (automatic : cc.rescaleTechnique.isAutomatic)
    (scaling_factor : F) (reach : ¬self.CanReach scaleDegree level) :
    self.adjustScaleAndLevel scaleDegree level scaling_factor = .ok (self, false) := by
  unfold CanReach at reach
  have short : self.c0.level = level ∧ scaleDegree < self.NoiseLevel ∨ self.c0.level < level := by omega
  rcases short with ⟨equal, above⟩ | fewer
  · have notBelow : ¬self.NoiseLevel < scaleDegree := by omega
    rcases RescaleTechnique.isAutomatic_iff.mp automatic with fixed | flexible
    · simp [adjustScaleAndLevel, fixed, equal, above.ne', notBelow]
    · obtain ⟨notManual, notAuto⟩ := RescaleTechnique.not_fixed_of_flexible flexible
      simp [adjustScaleAndLevel, notManual, notAuto, equal, notBelow, above]
  · have notHigher : ¬level < self.c0.level := by omega
    rcases RescaleTechnique.isAutomatic_iff.mp automatic with fixed | flexible
    · simp [adjustScaleAndLevel, fixed, fewer.ne, notHigher, fewer]
    · obtain ⟨notManual, notAuto⟩ := RescaleTechnique.not_fixed_of_flexible flexible
      simp [adjustScaleAndLevel, notManual, notAuto, notHigher, fewer]

theorem adjustPlaintextToCiphertext_eq (automatic : cc.rescaleTechnique.isAutomatic)
    (c : Ciphertext cc) : self.adjustPlaintextToCiphertext c =
      self.adjustScaleAndLevel c.NoiseLevel c.getLevel c.NoiseFactor := by
  rw [adjustPlaintextToCiphertext, if_pos automatic]

/-- A target of the same level and degree needs no change. -/
theorem adjustPlaintextToCiphertext_same (automatic : cc.rescaleTechnique.isAutomatic)
    {c : Ciphertext cc} (level : self.c0.level = c.getLevel)
    (degree : self.NoiseLevel = c.NoiseLevel) :
    self.adjustPlaintextToCiphertext c = .ok (self, true) := by
  rw [adjustPlaintextToCiphertext_eq automatic, ← level, ← degree]
  rcases RescaleTechnique.isAutomatic_iff.mp automatic with fixed | flexible
  · simp [adjustScaleAndLevel, fixed]
  · obtain ⟨notManual, notAuto⟩ := RescaleTechnique.not_fixed_of_flexible flexible
    simp [adjustScaleAndLevel, notManual, notAuto]

/-- A plaintext reaches every ciphertext that cannot reach it. -/
theorem adjustPlaintextToCiphertext_succeeds (automatic : cc.rescaleTechnique.isAutomatic)
    (possible : self.NoiseLevel = 1 ∨ self.NoiseLevel = 2) {c : Ciphertext cc} (valid : c.Valid)
    (stuck : ¬c.CanReach self.NoiseLevel self.c0.level) :
    ∃ result, self.adjustPlaintextToCiphertext c = .ok (result, true) ∧
      AdjustedTo c.NoiseLevel c.getLevel self result := by
  have reach : self.CanReach c.NoiseLevel c.getLevel := by
    unfold Ciphertext.CanReach at stuck
    unfold CanReach
    omega
  rw [adjustPlaintextToCiphertext_eq automatic]
  exact adjustScaleAndLevel_succeeds automatic possible (valid.degree automatic) c.NoiseFactor reach

end Plaintext
end Fideslib.CKKS
