/-
This file proves that the alignment of a ciphertext does not look at its key tag.
-/

import Fideslib.Offload.Alignment

namespace Fideslib.Offload

open CKKS

variable {F : Type} {cc : ContextData F}

def withKey (ciphertext : Ciphertext cc) (keyID : String) : Ciphertext cc :=
  { ciphertext with keyID }

/-- Only the key lookup of a product reads the tag, after an empty tag was replaced. -/
theorem mult_withKey [Mul F] [Div F] [One F] {self b : Ciphertext cc} (keys : String → Option (EvalKey cc))
    (calls : Nat) (rescale : Bool) (tagged : self.keyID = "" ∨ self.keyID = b.keyID)
    (checked : cc.asserts → self.keyID = b.keyID) :
    (withKey self b.keyID).mult keys calls b rescale = self.mult keys calls b rescale := by
  rcases tagged with empty | equal
  · cases calls with
    | zero => rfl
    | succ calls =>
        have adopted : (withKey self b.keyID).adoptKey b = self.adoptKey b := by
          rw [Ciphertext.adoptKey, Ciphertext.adoptKey, if_pos empty]
          change (if b.keyID = "" then withKey self b.keyID else withKey self b.keyID) = _
          exact ite_self _
        have passed : cc.check (self.keyID = b.keyID) "keyID == b.keyID" = .ok () :=
          ContextData.check_eq_ok_iff.mpr checked
        have passedToo : cc.check ((withKey self b.keyID).keyID = b.keyID) "keyID == b.keyID" =
            .ok () := ContextData.check_ok rfl
        rw [Ciphertext.mult, Ciphertext.mult, passed, passedToo, adopted]
  · rw [← equal]
    rfl

namespace Object

/-- This tags the object and its snapshot. -/
def retag (self : Object cc) (keyID : String) : Object cc :=
  { self with
    keyID
    state := self.state.map fun raw => { raw with keyid := keyID }
    sameLevel := fun resident => self.sameLevel (by simpa using resident) }

variable (self : Object cc) (keyID : String)

@[simp] theorem retag_NoiseLevel : (self.retag keyID).NoiseLevel = self.NoiseLevel := rfl

@[simp] theorem retag_NoiseFactor : (self.retag keyID).NoiseFactor = self.NoiseFactor := rfl

@[simp] theorem retag_getLevel : (self.retag keyID).getLevel = self.getLevel := by
  cases present : self.state with
  | none => simp only [getLevel, retag, present, Option.map_none]
  | some raw => simp only [getLevel, retag, present, Option.map_some]

@[simp] theorem retag_current : (self.retag keyID).current = withKey self.current keyID := by
  cases present : self.state with
  | none =>
      simp only [current, ensureResident, reload, retag, present, Option.map_none, withKey]
  | some raw =>
      simp only [current, ensureResident, reload, retag, present, Option.map_some, withKey, load]

@[simp] theorem retag_ofCiphertext (ciphertext : Ciphertext cc) :
    (ofCiphertext ciphertext).retag keyID = ofCiphertext (withKey ciphertext keyID) := rfl

@[simp] theorem retag_rescaleInternal [Div F] :
    (self.retag keyID).rescaleInternal = self.rescaleInternal.retag keyID := by
  simp only [rescaleInternal, enter, retag_current, retag_ofCiphertext]
  rfl

@[simp] theorem retag_multScalarNoPrecheck [Mul F] [Div F] (c : F) :
    (self.retag keyID).multScalarNoPrecheck c false =
      (self.multScalarNoPrecheck c false).retag keyID := by
  simp only [multScalarNoPrecheck, enter, retag_current, retag_ofCiphertext]
  rfl

@[simp] theorem retag_dropPolys (level : Int) :
    (self.retag keyID).dropPolys level = (self.dropPolys level).retag keyID := by
  simp only [dropPolys, enter, retag_current, retag_ofCiphertext]
  congr 1
  change (if self.current.getLevel > level then withKey (self.current.dropPolys level) keyID
      else withKey self.current keyID) = _
  rw [apply_ite fun ciphertext => withKey ciphertext keyID]

@[simp] theorem retag_withNoiseFactor (factor : F) :
    (self.retag keyID).withNoiseFactor factor = (self.withNoiseFactor factor).retag keyID := rfl

@[simp] theorem retag_raiseDegreeToLevel [Mul F] (level : Int) :
    (self.retag keyID).raiseDegreeToLevel level = (self.raiseDegreeToLevel level).retag keyID := by
  simp only [raiseDegreeToLevel, retag_getLevel]
  rfl

@[simp] theorem retag_ite (condition : Prop) [Decidable condition] (other : Object cc) :
    (if condition then self.retag keyID else other.retag keyID) =
      (if condition then self else other).retag keyID := by
  split_ifs <;> rfl

/-- The tag of an offloaded object is that of its snapshot. -/
def tag (self : Object cc) : String := self.current.keyID

@[simp] theorem tag_rescaleInternal [Div F] : self.rescaleInternal.tag = self.tag := rfl

@[simp] theorem tag_multScalarNoPrecheck [Mul F] [Div F] (c : F) :
    (self.multScalarNoPrecheck c false).tag = self.tag := rfl

@[simp] theorem tag_dropPolys (level : Int) : (self.dropPolys level).tag = self.tag := by
  change (if self.current.getLevel > level then self.current.dropPolys level
      else self.current).keyID = self.current.keyID
  split_ifs <;> rfl

@[simp] theorem tag_withNoiseFactor (factor : F) :
    (self.withNoiseFactor factor).tag = self.tag := by
  cases present : self.state with
  | none => simp only [tag, current, ensureResident, reload, withNoiseFactor, present]
  | some raw => simp only [tag, current, ensureResident, reload, withNoiseFactor, present, load]

@[simp] theorem tag_raiseDegreeToLevel [Mul F] (level : Int) :
    (self.raiseDegreeToLevel level).tag = self.tag := by
  cases present : self.state with
  | none =>
      simp only [tag, current, ensureResident, reload, raiseDegreeToLevel, scalePolys, present]
  | some raw =>
      simp only [tag, current, ensureResident, reload, raiseDegreeToLevel, scalePolys, present,
        load]

@[simp] theorem tag_ite (condition : Prop) [Decidable condition] (other : Object cc) :
    (if condition then self else other).tag = if condition then self.tag else other.tag := by
  split_ifs <;> rfl

end Object

/-- A step of the tagged object leaves the tagged result, and no step changes the tag. -/
inductive Retags (tag keyID : String) :
    Except Failure (Object cc × Bool) → Except Failure (Object cc × Bool) → Prop
  | error (failure : Failure) : Retags tag keyID (.error failure) (.error failure)
  | ok (result : Object cc) (flag : Bool) (kept : result.tag = tag) :
      Retags tag keyID (.ok (result, flag)) (.ok (result.retag keyID, flag))

namespace Retags

variable {tag keyID : String}

theorem ite {first second third fourth : Except Failure (Object cc × Bool)} (condition : Prop)
    [Decidable condition] (holds : Retags tag keyID first second)
    (fails : Retags tag keyID third fourth) :
    Retags tag keyID (if condition then first else third) (if condition then second else fourth) := by
  split_ifs
  · exact holds
  · exact fails

variable [Mul F] [Div F] (self : Object cc)

theorem ready (ciphertext : Ciphertext cc) (kept : ciphertext.keyID = tag) (c : F) :
    Retags tag keyID
      (do
        cc.check (ciphertext.NoiseLevel = 1) "this->NoiseLevel == 1"
        return (ofCiphertext (ciphertext.multScalarNoPrecheck c false), true))
      (do
        cc.check ((withKey ciphertext keyID).NoiseLevel = 1) "this->NoiseLevel == 1"
        return (ofCiphertext ((withKey ciphertext keyID).multScalarNoPrecheck c false), true)) := by
  change Retags tag keyID _ (cc.check (ciphertext.NoiseLevel = 1) "this->NoiseLevel == 1" >>= _)
  cases cc.check (ciphertext.NoiseLevel = 1) "this->NoiseLevel == 1" with
  | error failure => exact .error failure
  | ok _ => exact .ok (ofCiphertext (ciphertext.multScalarNoPrecheck c false)) true kept

theorem multScalar (c : F) :
    Retags self.tag keyID (do return (← self.multScalar c false, true))
      (do return (← (self.retag keyID).multScalar c false, true)) := by
  rw [Object.multScalar, Object.multScalar, Object.retag_current]
  simp only [Ciphertext.multScalar, bind_assoc, pure_bind]
  by_cases reduced : cc.rescaleTechnique.isAutomatic ∧ self.current.NoiseLevel = 2
  · have also : cc.rescaleTechnique.isAutomatic ∧ (withKey self.current keyID).NoiseLevel = 2 :=
      reduced
    rw [if_pos reduced, if_pos also]
    exact ready self.current.rescaleInternal rfl c
  · have also : ¬(cc.rescaleTechnique.isAutomatic ∧
        (withKey self.current keyID).NoiseLevel = 2) := reduced
    rw [if_neg reduced, if_neg also]
    exact ready self.current rfl c

variable [One F]

theorem adjustScaleAndLevel (scaleDegree level : Int) (scaling_factor : F) :
    Retags self.tag keyID (self.adjustScaleAndLevel scaleDegree level scaling_factor)
      ((self.retag keyID).adjustScaleAndLevel scaleDegree level scaling_factor) := by
  have scalar := @multScalar _ _ keyID _ _ self 1
  simp only [Object.adjustScaleAndLevel, Object.retag_getLevel, Object.retag_NoiseLevel,
    Object.retag_NoiseFactor, Object.retag_dropPolys, Object.retag_rescaleInternal,
    Object.retag_multScalarNoPrecheck, Object.retag_raiseDegreeToLevel,
    Object.retag_withNoiseFactor, Object.retag_ite]
  repeat' apply ite
  all_goals first | exact scalar | exact .ok _ _ (by simp)

theorem adjustForAddOrSub (b : Ciphertext cc) :
    Retags self.tag keyID (self.adjustForAddOrSub b)
      ((self.retag keyID).adjustForAddOrSub b) := by
  have scalar := @multScalar _ _ keyID _ _ self 1
  rw [Object.adjustForAddOrSub, Object.adjustForAddOrSub, Object.retag_getLevel,
    Object.retag_NoiseLevel, Object.retag_rescaleInternal]
  apply ite
  · apply ite
    · apply ite
      · exact .ok _ true (Object.tag_rescaleInternal self)
      · apply ite
        · exact scalar
        · exact .ok self true rfl
    · apply ite
      · exact .ok _ true (Object.tag_rescaleInternal self)
      · apply ite
        · exact .ok self false rfl
        · exact .ok self true rfl
  · apply ite
    · exact adjustScaleAndLevel self b.NoiseLevel b.getLevel b.NoiseFactor
    · cases cc.check False "\"This never happens\" == nullptr" with
      | error failure => exact .error failure
      | ok _ => exact .ok self false rfl

end Retags

/-- A step that succeeds leaves a ciphertext with this tag. -/
inductive Tagged (keyID : String) : Except Failure (Ciphertext cc × Bool) → Prop
  | error (failure : Failure) : Tagged keyID (.error failure)
  | ok (result : Ciphertext cc) (flag : Bool) (kept : result.keyID = keyID) :
      Tagged keyID (.ok (result, flag))

namespace Tagged

variable {keyID : String}

theorem ite {first second : Except Failure (Ciphertext cc × Bool)} (condition : Prop)
    [Decidable condition] (holds : Tagged keyID first) (fails : Tagged keyID second) :
    Tagged keyID (if condition then first else second) := by
  split_ifs
  · exact holds
  · exact fails

theorem dropped (condition : Prop) [Decidable condition] (self : Ciphertext cc) (level : Int)
    (kept : self.keyID = keyID) :
    (if condition then self.dropPolys level else self).keyID = keyID := by
  split_ifs <;> exact kept

variable [Mul F] [Div F] (self : Ciphertext cc)

theorem multScalar (c : F) :
    Tagged self.keyID (do return (← self.multScalar c false, true)) := by
  have ready : (if cc.rescaleTechnique.isAutomatic ∧ self.NoiseLevel = 2 then
      self.rescaleInternal else self).keyID = self.keyID := by
    split_ifs <;> rfl
  simp only [Ciphertext.multScalar, bind_assoc, pure_bind]
  cases cc.check ((if cc.rescaleTechnique.isAutomatic ∧ self.NoiseLevel = 2 then
      self.rescaleInternal else self).NoiseLevel = 1) "this->NoiseLevel == 1" with
  | error failure => exact .error failure
  | ok _ => exact .ok _ true ready

variable [One F]

theorem adjustScaleAndLevel (scaleDegree level : Int) (scaling_factor : F) :
    Tagged self.keyID (self.adjustScaleAndLevel scaleDegree level scaling_factor) := by
  have moved : (if self.NoiseLevel = 2 then self.rescaleInternal
      else self.raiseDegreeToLevel level).keyID = self.keyID := by
    split_ifs <;> rfl
  unfold Ciphertext.adjustScaleAndLevel
  apply ite
  · exact ite _ (.ok _ true rfl) (ite _ (.ok _ false rfl) (.ok _ true rfl))
  apply ite
  · apply ite
    · exact ite _ (.ok _ true rfl) (.ok _ false rfl)
    · exact ite _ (.ok _ true (dropped _ _ level moved)) (.ok _ false rfl)
  apply ite
  · apply ite
    · apply ite
      · exact .ok _ true (dropped _ _ level rfl)
      · exact ite _ (.ok _ true rfl) (.ok _ true (dropped _ _ (level + 1) rfl))
    · exact ite _ (.ok _ true rfl) (.ok _ true (dropped _ _ (level + 1) rfl))
  · exact ite _ (.ok _ false rfl) (ite _ (multScalar self 1)
      (ite _ (.ok _ false rfl) (.ok _ true rfl)))

theorem adjustForAddOrSub (b : Ciphertext cc) : Tagged self.keyID (self.adjustForAddOrSub b) := by
  unfold Ciphertext.adjustForAddOrSub
  apply ite
  · apply ite
    · exact ite _ (.ok _ true rfl) (ite _ (multScalar self 1) (.ok _ true rfl))
    · exact ite _ (.ok _ true rfl) (ite _ (.ok _ false rfl) (.ok _ true rfl))
  · apply ite
    · exact adjustScaleAndLevel self b.NoiseLevel b.getLevel b.NoiseFactor
    · cases cc.check False "\"This never happens\" == nullptr" with
      | error failure => exact .error failure
      | ok _ => exact .ok self false rfl

end Tagged
end Fideslib.Offload
