/-
This file proves that additions, subtractions and products reach two aligned operands.
-/

import Fideslib.CKKS.Alignment
import Mathlib

namespace Fideslib.CKKS
namespace Ciphertext

open ContextData (check_ok)

variable {F : Type} [Mul F] [Div F] [One F] {cc : ContextData F}

/-- One of the two operands is adjusted to the other. -/
inductive Aligned (self b : Ciphertext cc) : Ciphertext cc → Ciphertext cc → Prop
  | first {adjusted : Ciphertext cc} (done : self.adjustForAddOrSub b = .ok (adjusted, true))
      (target : AdjustedTo b.NoiseLevel b.getLevel self adjusted) : Aligned self b adjusted b
  | second {adjusted : Ciphertext cc} (kept : self.adjustForAddOrSub b = .ok (self, false))
      (done : b.adjustForAddOrSub self = .ok (adjusted, true))
      (target : AdjustedTo self.NoiseLevel self.getLevel b adjusted) : Aligned self b self adjusted

variable {self b x y : Ciphertext cc}

theorem adjustForAddOrSub_eq (automatic : cc.rescaleTechnique.isAutomatic) :
    self.adjustForAddOrSub b =
      self.adjustScaleAndLevel b.NoiseLevel b.getLevel b.NoiseFactor := by
  have notManual : ¬cc.rescaleTechnique = .fixedManual := by
    intro manual
    simp [manual, RescaleTechnique.isAutomatic] at automatic
  simp only [adjustForAddOrSub, notManual, automatic, if_true, if_false]

theorem adjustForAddOrSub_same (automatic : cc.rescaleTechnique.isAutomatic)
    (level : self.getLevel = b.getLevel) (degree : self.NoiseLevel = b.NoiseLevel) :
    self.adjustForAddOrSub b = .ok (self, true) := by
  rw [adjustForAddOrSub_eq automatic, ← level, ← degree]
  exact adjustScaleAndLevel_same automatic b.NoiseFactor

theorem exists_aligned (automatic : cc.rescaleTechnique.isAutomatic) (validSelf : self.Valid)
    (validB : b.Valid) : ∃ x y, Aligned self b x y := by
  by_cases reach : self.CanReach b.NoiseLevel b.getLevel
  · obtain ⟨adjusted, done, target⟩ := adjustScaleAndLevel_succeeds automatic validSelf
      (validB.degree automatic) b.NoiseFactor reach
    rw [← adjustForAddOrSub_eq automatic] at done
    exact ⟨adjusted, b, .first done target⟩
  · have back := (canReach_total self b).resolve_left reach
    obtain ⟨adjusted, done, target⟩ := adjustScaleAndLevel_succeeds automatic validB
      (validSelf.degree automatic) self.NoiseFactor back
    have kept := adjustScaleAndLevel_fails automatic b.NoiseFactor reach
    rw [← adjustForAddOrSub_eq automatic] at done kept
    exact ⟨self, adjusted, .second kept done target⟩

namespace Aligned

theorem sameLevel (aligned : Aligned self b x y) : x.getLevel = y.getLevel := by
  cases aligned with
  | first done target => exact target.level
  | second kept done target => exact target.level.symm

theorem sameDegree (aligned : Aligned self b x y) : x.NoiseLevel = y.NoiseLevel := by
  cases aligned with
  | first done target => exact target.degree
  | second kept done target => exact target.degree.symm

theorem keyID (aligned : Aligned self b x y) : x.keyID = self.keyID ∧ y.keyID = b.keyID := by
  cases aligned with
  | first done target => exact ⟨target.keyID, rfl⟩
  | second kept done target => exact ⟨rfl, target.keyID⟩

/-- The aligned pair takes its level and its degree from one operand. -/
theorem fromOperand (aligned : Aligned self b x y) :
    (x.getLevel = self.getLevel ∧ x.NoiseLevel = self.NoiseLevel) ∨
      x.getLevel = b.getLevel ∧ x.NoiseLevel = b.NoiseLevel := by
  cases aligned with
  | first done target => exact Or.inr ⟨target.level, target.degree⟩
  | second kept done target => exact Or.inl ⟨rfl, rfl⟩

end Aligned

/-- Operands of one level and degree are finished at once. -/
theorem withAdjusted_of_ready (automatic : cc.rescaleTechnique.isAutomatic)
    (tagged : cc.check (x.keyID = y.keyID) "keyID == b.keyID" = .ok ())
    (level : x.getLevel = y.getLevel) (degree : x.NoiseLevel = y.NoiseLevel) (op : String)
    (finish : Ciphertext cc → Ciphertext cc → Except Failure (Ciphertext cc)) (calls : Nat) :
    withAdjusted op finish (calls + 1) x y = finish x y := by
  simp [withAdjusted, tagged, automatic, adjustForAddOrSub_same automatic level degree]

/-- The operation calls itself at most once and then works on the aligned operands. -/
theorem withAdjusted_eq_finish (automatic : cc.rescaleTechnique.isAutomatic)
    (tagged : cc.check (self.keyID = b.keyID) "keyID == b.keyID" = .ok ())
    (aligned : Aligned self b x y) (op : String)
    (finish : Ciphertext cc → Ciphertext cc → Except Failure (Ciphertext cc)) (calls : Nat) :
    withAdjusted op finish (calls + 2) self b = finish x y := by
  cases aligned with
  | first done target => simp [withAdjusted, tagged, automatic, done]
  | second kept done target =>
      have again := tagged
      rw [← target.keyID] at again
      have finished := withAdjusted_of_ready automatic again target.level.symm target.degree.symm op
        finish calls
      rw [← finished, withAdjusted]
      simp [tagged, automatic, kept, done]

/-- The sum combines the limbs up to the level of the first operand. -/
def sum (x y : Ciphertext cc) : Ciphertext cc :=
  { x with
    c0 := x.c0.add y.c0
    c1 := x.c1.add y.c1
    sameLevel := x.sameLevel
    slots := max x.slots y.slots }

def difference (x y : Ciphertext cc) : Ciphertext cc :=
  { x with
    c0 := x.c0.sub y.c0
    c1 := x.c1.sub y.c1
    sameLevel := x.sameLevel
    slots := max x.slots y.slots }

/-- Two operands fit when the first has no more limbs and their tags and degrees agree. -/
structure Fits (x y : Ciphertext cc) : Prop where
  level : x.getLevel ≤ y.getLevel
  flexible : cc.rescaleTechnique.isFlexible → x.getLevel = y.getLevel
  degree : x.NoiseLevel = y.NoiseLevel
  keyID : x.keyID = y.keyID

theorem Aligned.fits (aligned : Aligned self b x y) (sameKey : self.keyID = b.keyID) :
    Fits x y where
  level := aligned.sameLevel.le
  flexible := fun _ => aligned.sameLevel
  degree := aligned.sameDegree
  keyID := by rw [aligned.keyID.1, aligned.keyID.2, sameKey]

theorem Fits.dropForAdd (fits : Fits x y) : x.dropForAdd y = .ok x := by
  have low : ¬x.getLevel > y.getLevel := not_lt.mpr fits.level
  by_cases flexible : cc.rescaleTechnique.isFlexible
  · simp [Ciphertext.dropForAdd, flexible, check_ok (fits.flexible flexible)]
  · simp [Ciphertext.dropForAdd, flexible, low]

omit [Mul F] [Div F] [One F] in
theorem Fits.dropForSub (fits : Fits x y) : x.dropForSub y = .ok x := by
  have low : ¬x.getLevel > y.getLevel := not_lt.mpr fits.level
  by_cases flexible : cc.rescaleTechnique.isFlexible
  · simp [Ciphertext.dropForSub, flexible, check_ok (fits.flexible flexible)]
  · simp [Ciphertext.dropForSub, flexible, low]

omit [Mul F] [Div F] [One F] in
/-- The metadata of a result comes from its first operand, which is the result itself. -/
theorem Fits.addMetadata {result : Ciphertext cc} (fits : Fits x y)
    (level : result.getLevel = x.getLevel) (degree : result.NoiseLevel = x.NoiseLevel)
    (keyID : result.keyID = x.keyID) :
    result.addMetadata result y = .ok { result with slots := max result.slots y.slots } := by
  have sameLevel : cc.rescaleTechnique.isFlexible → result.getLevel = y.getLevel :=
    fun flexible => level.trans (fits.flexible flexible)
  have sameDegree : result.NoiseLevel = y.NoiseLevel := degree.trans fits.degree
  have sameKey : result.keyID = y.keyID := keyID.trans fits.keyID
  by_cases flexible : cc.rescaleTechnique.isFlexible
  · simp [Ciphertext.addMetadata, flexible, check_ok (sameLevel flexible),
      check_ok sameDegree, check_ok sameKey, check_ok]
  · simp [Ciphertext.addMetadata, flexible, check_ok sameDegree,
      check_ok sameKey, check_ok]

omit [Mul F] [Div F] [One F] in
theorem Fits.polysChecked (fits : Fits x y) :
    cc.check (x.c0.level ≤ y.c0.level) "level <= p.level" = .ok () ∧
      cc.check (x.c1.level ≤ y.c1.level) "level <= p.level" = .ok () := by
  have second : x.c1.level ≤ y.c1.level := by
    rw [x.sameLevel, y.sameLevel]
    exact fits.level
  exact ⟨check_ok fits.level, check_ok second⟩

theorem Fits.addAligned (fits : Fits x y) (lowered : self.dropForAdd y = .ok x) :
    self.addAligned y = .ok (x.sum y) := by
  simp only [Ciphertext.addAligned, lowered, addPolys, fits.polysChecked.1, fits.polysChecked.2,
    ok_bind]
  exact fits.addMetadata rfl rfl rfl

omit [Mul F] [Div F] [One F] in
theorem Fits.subAligned (fits : Fits x y) (lowered : self.dropForSub y = .ok x) :
    self.subAligned y = .ok (x.difference y) := by
  simp only [Ciphertext.subAligned, lowered, subPolys, fits.polysChecked.1, fits.polysChecked.2,
    ok_bind]
  exact fits.addMetadata rfl rfl rfl

/-- Under an automatic technique the sum is the sum of the aligned operands. -/
theorem add_eq_sum (automatic : cc.rescaleTechnique.isAutomatic) (sameKey : self.keyID = b.keyID)
    (aligned : Aligned self b x y) (calls : Nat) : add (calls + 2) self b = .ok (x.sum y) := by
  have fits := aligned.fits sameKey
  rw [add, withAdjusted_eq_finish automatic (check_ok sameKey) aligned]
  exact fits.addAligned fits.dropForAdd

theorem sub_eq_difference (automatic : cc.rescaleTechnique.isAutomatic)
    (sameKey : self.keyID = b.keyID) (aligned : Aligned self b x y) (calls : Nat) :
    sub (calls + 2) self b = .ok (x.difference y) := by
  have fits := aligned.fits sameKey
  rw [sub, withAdjusted_eq_finish automatic (check_ok sameKey) aligned]
  exact fits.subAligned fits.dropForSub

theorem alignForMult_reduces (aligned : Aligned self b x y) :
    ∃ owned, self.alignForMult b = .ok (x.reduceDegree, owned) ∧
      owned.getD b = y.reduceDegree := by
  have degree := aligned.sameDegree
  cases aligned with
  | first done target =>
      by_cases two : x.NoiseLevel = 2
      · have other : b.NoiseLevel = 2 := degree.symm.trans two
        refine ⟨some b.rescaleInternal, ?_, ?_⟩
        · simp [alignForMult, done, reduceDegree, two]
          rfl
        · simp [reduceDegree, other]
      · have other : ¬b.NoiseLevel = 2 := degree ▸ two
        refine ⟨none, ?_, ?_⟩
        · simp [alignForMult, done, reduceDegree, two]
          rfl
        · simp [reduceDegree, other]
  | second kept done target =>
      by_cases two : self.NoiseLevel = 2
      · have other : y.NoiseLevel = 2 := degree.symm.trans two
        refine ⟨some y.rescaleInternal, ?_, ?_⟩
        · simp [alignForMult, kept, done, reduceDegree, two]
          rfl
        · simp [reduceDegree, other]
      · have other : ¬y.NoiseLevel = 2 := degree ▸ two
        refine ⟨some y, ?_, ?_⟩
        · simp [alignForMult, kept, done, reduceDegree, two]
          rfl
        · simp [reduceDegree, other]

omit [Mul F] [One F] in
theorem reduceDegree_sameLevel (level : x.getLevel = y.getLevel)
    (degree : x.NoiseLevel = y.NoiseLevel) :
    x.reduceDegree.getLevel = y.reduceDegree.getLevel := by
  by_cases two : x.NoiseLevel = 2
  · simp only [reduceDegree, two, ← degree, if_true]
    exact congrArg (RNSPoly.rescaledLevel cc) level
  · simp only [reduceDegree, two, ← degree, if_false]
    exact level

omit [Mul F] [One F] in
theorem reduceDegree_degree (possible : x.NoiseLevel = 1 ∨ x.NoiseLevel = 2) :
    x.reduceDegree.NoiseLevel = 1 := by
  rcases possible with one | two
  · simp [reduceDegree, one]
  · simp [reduceDegree, two, rescaleInternal, withNoise]

omit [Mul F] [One F] in
@[simp] theorem reduceDegree_keyID : x.reduceDegree.keyID = x.keyID := by
  unfold reduceDegree
  split_ifs <;> rfl

omit [Mul F] [Div F] [One F] in
theorem adoptKey_same (sameKey : self.keyID = b.keyID) : self.adoptKey b = self := by
  rw [adoptKey, ← sameKey]
  exact ite_self self

/-- Two operands of one level and degree one are multiplied at once. -/
theorem mult_of_ready (automatic : cc.rescaleTechnique.isAutomatic)
    (keys : String → Option (EvalKey cc))
    (tagged : cc.check (x.keyID = y.keyID) "keyID == b.keyID" = .ok ()) (adopted : x.adoptKey y = x)
    (level : x.getLevel = y.getLevel) (one : x.NoiseLevel = 1) (other : y.NoiseLevel = 1)
    (calls : Nat) (rescale : Bool) :
    mult keys (calls + 1) x y rescale = multAligned keys x y rescale := by
  have done := adjustForAddOrSub_same automatic level (one.trans other.symm)
  have ready : x.alignForMult y = .ok (x, none) := by
    simp [alignForMult, done, one]
    rfl
  simp [mult, tagged, adopted, automatic, ready]

omit [Mul F] [Div F] [One F] in
/-- The adopted tag is checked and adopted again without effect. -/
theorem adoptKey_again (tagged : cc.check (self.keyID = b.keyID) "keyID == b.keyID" = .ok ())
    (first : x.keyID = (self.adoptKey b).keyID) (second : y.keyID = b.keyID) :
    cc.check (x.keyID = y.keyID) "keyID == b.keyID" = .ok () ∧ x.adoptKey y = x := by
  rw [adoptKey] at first
  refine ⟨?_, ?_⟩
  · rw [ContextData.check_eq_ok_iff] at tagged ⊢
    intro asserted
    rw [second, ← tagged asserted, first]
    split_ifs with empty
    · exact (tagged asserted).symm
    · rfl
  · rw [adoptKey]
    split_ifs with empty
    · rw [second]
      split_ifs at first with start
      · exact congrArg (fun keyID => { x with keyID }) first.symm
      · exact absurd (first.symm.trans empty) start
    · rfl

/-- The product calls itself at most once and then multiplies the reduced aligned operands. -/
theorem mult_eq_multAligned (automatic : cc.rescaleTechnique.isAutomatic)
    (keys : String → Option (EvalKey cc))
    (tagged : cc.check (self.keyID = b.keyID) "keyID == b.keyID" = .ok ())
    (aligned : Aligned (self.adoptKey b) b x y) (possible : x.NoiseLevel = 1 ∨ x.NoiseLevel = 2)
    (calls : Nat) (rescale : Bool) :
    mult keys (calls + 2) self b rescale =
      multAligned keys x.reduceDegree y.reduceDegree rescale := by
  obtain ⟨owned, computed, second⟩ := alignForMult_reduces aligned
  have other : y.NoiseLevel = 1 ∨ y.NoiseLevel = 2 := aligned.sameDegree ▸ possible
  cases owned with
  | none =>
      have same : b = y.reduceDegree := second
      rw [← same]
      simp [mult, tagged, automatic, computed]
  | some b_owned =>
      have same : b_owned = y.reduceDegree := second
      have level := reduceDegree_sameLevel aligned.sameLevel aligned.sameDegree
      have first : x.reduceDegree.keyID = (self.adoptKey b).keyID :=
        reduceDegree_keyID.trans aligned.keyID.1
      have last : y.reduceDegree.keyID = b.keyID := reduceDegree_keyID.trans aligned.keyID.2
      obtain ⟨retagged, adopted⟩ := adoptKey_again tagged first last
      have again := mult_of_ready automatic keys retagged adopted level
        (reduceDegree_degree possible) (reduceDegree_degree other) calls rescale
      rw [← again, mult]
      simp [tagged, automatic, computed, same]

omit [Div F] [One F] in
theorem multMetadata_ok {result : Ciphertext cc} (same : result.getLevel = x.getLevel)
    (level : x.getLevel = y.getLevel) (keyID : result.keyID = y.keyID) :
    result.multMetadata result y = .ok { result with
      slots := max result.slots y.slots
      NoiseLevel := result.NoiseLevel + y.NoiseLevel
      NoiseFactor := result.NoiseFactor * y.NoiseFactor } := by
  have reached : result.getLevel = y.getLevel := same.trans level
  by_cases flexible : cc.rescaleTechnique.isFlexible
  · simp [multMetadata, flexible, check_ok reached, check_ok keyID,
      check_ok]
  · simp [multMetadata, flexible, check_ok keyID, check_ok]

omit [One F] in
/-- A product of ready operands only lacks its evaluation key. -/
theorem multAligned_returns (keys : String → Option (EvalKey cc)) (sameKey : x.keyID = y.keyID)
    (level : x.getLevel = y.getLevel) (one : x.NoiseLevel = 1) (other : y.NoiseLevel = 1)
    (rescale : Bool) :
    (keys x.keyID = none ∧
        multAligned keys x y rescale = .error (.noEvaluationKey x.keyID)) ∨
      ∃ result, multAligned keys x y rescale = .ok result := by
  have low : ¬x.getLevel > y.getLevel := not_lt.mpr level.le
  have degree : x.NoiseLevel = y.NoiseLevel := one.trans other.symm
  cases found : keys x.keyID with
  | none =>
      left
      simp [multAligned, low, found, check_ok one, check_ok degree]
  | some kskEval =>
      right
      let parts := RNSPoly.binomialMult x.c0 x.c1 y.c0 y.c1
      have first : parts.1.level ≤ (kskEval.keySwitchCore parts.2.2).1.level := by
        rw [kskEval.level_fst]
        exact x.sameLevel.ge
      have second : parts.2.1.level ≤ (kskEval.keySwitchCore parts.2.2).2.level := by
        rw [kskEval.level_snd]
        rfl
      simp only [multAligned, low, found, and_false, if_false, check_ok one,
        check_ok degree, ok_bind]
      have metadata := @multMetadata_ok _ _ _ x y (x.relinearize kskEval y) rfl level sameKey
      rw [check_ok first, ok_bind, check_ok second, ok_bind, metadata, ok_bind]
      exact ⟨_, rfl⟩

/-- This is what the adjustment of two operands promises. -/
structure AlignmentContract (keys : String → Option (EvalKey cc)) (a b : Ciphertext cc) :
    Prop where
  adjusts : ∀ (scaleDegree level : Int) (scaling_factor : F),
    scaleDegree = 1 ∨ scaleDegree = 2 → 2 ≤ level →
      ∃ result flag,
        a.adjustScaleAndLevel scaleDegree level scaling_factor = .ok (result, flag) ∧
          (flag = true → result.getLevel = level ∧ result.NoiseLevel = scaleDegree) ∧
          (flag = false → result = a)
  oneDirection : ∃ adjusted, a.adjustForAddOrSub b = .ok (adjusted, true) ∨
    b.adjustForAddOrSub a = .ok (adjusted, true)
  adds : ∀ calls, ∃ result, add (calls + 2) a b = .ok result
  subtracts : ∀ calls, ∃ result, sub (calls + 2) a b = .ok result
  reaches : ∃ x y : Ciphertext cc, x.getLevel = y.getLevel ∧ 1 ≤ x.getLevel ∧
    x.NoiseLevel = 1 ∧ y.NoiseLevel = 1 ∧ ∀ calls rescale,
      mult keys (calls + 2) a b rescale = multAligned keys x y rescale
  multiplies : ∀ calls rescale,
    (keys a.keyID = none ∧
        mult keys (calls + 2) a b rescale = .error (.noEvaluationKey a.keyID)) ∨
      ∃ result, mult keys (calls + 2) a b rescale = .ok result

theorem alignment_contract (automatic : cc.rescaleTechnique.isAutomatic)
    (keys : String → Option (EvalKey cc)) (self b : Ciphertext cc) (validSelf : self.Valid)
    (validB : b.Valid) (roomSelf : 2 ≤ self.getLevel) (roomB : 2 ≤ b.getLevel)
    (sameKey : self.keyID = b.keyID) : AlignmentContract keys self b := by
  obtain ⟨x, y, aligned⟩ := exists_aligned automatic validSelf validB
  have room : 2 ≤ x.getLevel ∧ x.getLevel ≤ cc.L ∧ (x.NoiseLevel = 1 ∨ x.NoiseLevel = 2) := by
    rcases aligned.fromOperand with ⟨level, degree⟩ | ⟨level, degree⟩
    · rw [level, degree]
      exact ⟨roomSelf, validSelf.level_le, validSelf.degree automatic⟩
    · rw [level, degree]
      exact ⟨roomB, validB.level_le, validB.degree automatic⟩
  have one := reduceDegree_degree room.2.2
  have other := reduceDegree_degree (aligned.sameDegree ▸ room.2.2)
  have level := reduceDegree_sameLevel aligned.sameLevel aligned.sameDegree
  have adopted : Aligned (self.adoptKey b) b x y := by
    rw [adoptKey_same sameKey]
    exact aligned
  have product := mult_eq_multAligned automatic keys (check_ok sameKey) adopted room.2.2
  refine ⟨?_, ?_, ?_, ?_, ⟨x.reduceDegree, y.reduceDegree, level, ?_, one, other, product⟩, ?_⟩
  · intro scaleDegree target scaling_factor requested _
    by_cases reach : self.CanReach scaleDegree target
    · obtain ⟨result, done, adjusted⟩ :=
        adjustScaleAndLevel_succeeds automatic validSelf requested scaling_factor reach
      exact ⟨result, true, done, fun _ => ⟨adjusted.level, adjusted.degree⟩, by simp⟩
    · exact ⟨self, false, adjustScaleAndLevel_fails automatic scaling_factor reach, by simp,
        fun _ => rfl⟩
  · cases aligned with
    | first done target => exact ⟨_, Or.inl done⟩
    | second kept done target => exact ⟨_, Or.inr done⟩
  · exact fun calls => ⟨_, add_eq_sum automatic sameKey aligned calls⟩
  · exact fun calls => ⟨_, sub_eq_difference automatic sameKey aligned calls⟩
  · unfold reduceDegree
    split_ifs
    · change 1 ≤ RNSPoly.rescaledLevel cc x.getLevel
      rw [rescaledLevel_of_le room.2.1]
      omega
    · omega
  · intro calls rescale
    have tags := (aligned.fits sameKey).keyID
    have returned := multAligned_returns keys (by simpa using tags) level one other rescale
    rw [reduceDegree_keyID, aligned.keyID.1] at returned
    rw [product calls rescale]
    exact returned

/-- This context has a chain of four levels and limbs of one coefficient. -/
def smallContext (rescaleTechnique : RescaleTechnique) (asserts : Bool) : ContextData Nat where
  rescaleTechnique := rescaleTechnique
  L := 3
  N := 1
  prime := fun _ => 3
  prime_odd := fun _ => rfl
  point := fun _ _ => 1
  specialPrimeFactor := 3
  ScalingFactorReal := fun _ => 3
  ScalingFactorRealBig := fun _ => 9
  ModReduceFactor := fun _ => 3
  ElemForEvalMult := fun _ _ _ => 3
  asserts := asserts

/-- This ciphertext encrypts zero at the given level and degree. -/
def zeroAt (cc : ContextData Nat) (level NoiseLevel : Int) : Ciphertext cc where
  c0 := ⟨level, fun _ => 0⟩
  c1 := ⟨level, fun _ => 0⟩
  sameLevel := rfl
  NoiseLevel := NoiseLevel
  NoiseFactor := if NoiseLevel = 1 then cc.ScalingFactorReal level else cc.ScalingFactorRealBig level
  slots := 1
  keyID := "owner"

theorem alignment_contract_smallContext :
    AlignmentContract (fun _ => none) (zeroAt (smallContext .flexibleAuto true) 3 2)
      (zeroAt (smallContext .flexibleAuto true) 2 1) :=
  alignment_contract rfl _ _ _ ⟨by decide, by decide, fun _ => Or.inr rfl⟩
    ⟨by decide, by decide, fun _ => Or.inl rfl⟩ (by decide) (by decide) rfl

end Ciphertext
end Fideslib.CKKS
