/-
This file settles when an addition succeeds in both orders and matches the subtraction.
-/

import Fideslib.CKKS.SignedOperands

namespace Fideslib.CKKS
namespace Ciphertext

variable {F : Type} [Mul F] [Div F] [One F] {cc : ContextData F}

/-- Two results agree in every limb up to their level and in all but the noise factor. -/
structure Agrees (left right : Ciphertext cc) : Prop where
  c0 : left.c0.Signed 1 right.c0
  c1 : left.c1.Signed 1 right.c1
  NoiseLevel : right.NoiseLevel = left.NoiseLevel
  slots : right.slots = left.slots
  keyID : right.keyID = left.keyID

/-- These are the operands that the polynomials are added from. -/
def Operands (self b x y : Ciphertext cc) : Prop :=
  if cc.rescaleTechnique.isAutomatic then Aligned self b x y else x = self ∧ y = b

/-- The result sums the limbs of both operands up to the lower level. -/
structure IsSumOf (x y result : Ciphertext cc) : Prop where
  level : result.getLevel = min x.getLevel y.getLevel
  c0 : ∀ id : Nat, (id : Int) ≤ result.getLevel →
    result.c0.limb id = x.c0.limb id + y.c0.limb id
  c1 : ∀ id : Nat, (id : Int) ≤ result.getLevel →
    result.c1.limb id = x.c1.limb id + y.c1.limb id
  NoiseLevel : result.NoiseLevel = x.NoiseLevel

/-- This is the promise of the addition and the subtraction of two operands. -/
structure AdditionContract (a b : Ciphertext cc) : Prop where
  commutes : ∃ x y left right, Operands a b x y ∧
    (∀ calls, add (calls + 2) a b = .ok left) ∧ (∀ calls, add (calls + 2) b a = .ok right) ∧
    IsSumOf x y left ∧ IsSumOf y x right ∧ Agrees left right
  subtracts : ∃ difference total,
    (∀ calls, sub (calls + 2) a b = .ok difference) ∧
    (∀ calls, add (calls + 2) a b.negate = .ok total) ∧ Agrees difference total

variable {self b x y : Ciphertext cc}

omit [Mul F] [Div F] [One F] in
theorem sum_isSumOf (level : x.getLevel ≤ y.getLevel) : IsSumOf x y (x.sum y) where
  level := (min_eq_left level).symm
  c0 := by
    intro id inside
    change (id : Int) ≤ x.c0.level at inside
    simp only [sum, RNSPoly.add, RNSPoly.mapLimbs, inside, if_true]
  c1 := by
    intro id inside
    change (id : Int) ≤ x.c0.level at inside
    simp only [sum, RNSPoly.add, RNSPoly.mapLimbs, x.sameLevel, inside, if_true]
  NoiseLevel := rfl

omit [Mul F] [Div F] [One F] in
/-- The two orders of a sum agree. -/
theorem IsSumOf.agrees {left right : Ciphertext cc} (first : IsSumOf x y left)
    (second : IsSumOf y x right) (degree : x.NoiseLevel = y.NoiseLevel)
    (slots : right.slots = left.slots) (keyID : right.keyID = left.keyID) : Agrees left right := by
  have level : right.getLevel = left.getLevel := by
    rw [first.level, second.level, min_comm]
  have levelC1 : right.c1.level = left.c1.level := by
    rw [left.sameLevel, right.sameLevel]
    exact level
  refine ⟨⟨level, ?_⟩, ⟨levelC1, ?_⟩, ?_, slots, keyID⟩
  · intro id inside
    rw [one_smul, first.c0 id inside, second.c0 id (inside.trans level.ge), add_comm]
  · intro id inside
    have below : (id : Int) ≤ left.getLevel := by
      rw [left.sameLevel] at inside
      exact inside
    rw [one_smul, first.c1 id below, second.c1 id (below.trans level.ge), add_comm]
  · rw [first.NoiseLevel, second.NoiseLevel, degree]

omit [Mul F] [Div F] [One F] in
theorem difference_agrees (level : x.getLevel ≤ y.getLevel) {negated : Ciphertext cc}
    (related : Signed (-1) y negated) : Agrees (x.difference y) (x.sum negated) where
  c0 := related.c0.sub_add level
  c1 := related.c1.sub_add (by rw [x.sameLevel, y.sameLevel]; exact level)
  NoiseLevel := rfl
  slots := congrArg (max x.slots) related.slots
  keyID := rfl

/-- The alignment of two operands does not depend on their order. -/
theorem Aligned.swap (automatic : cc.rescaleTechnique.isAutomatic)
    (aligned : Aligned self b x y) : Aligned b self y x := by
  cases aligned with
  | second kept done target => exact .first done target
  | first done target =>
      by_cases back : b.CanReach self.NoiseLevel self.getLevel
      · have reach : self.CanReach b.NoiseLevel b.getLevel := by
          by_contra stuck
          have kept := adjustScaleAndLevel_fails automatic b.NoiseFactor stuck
          rw [← adjustForAddOrSub_eq automatic, done] at kept
          cases kept
        unfold CanReach at back reach
        have level : self.getLevel = b.getLevel := by omega
        have degree : self.NoiseLevel = b.NoiseLevel := by omega
        -- Both directions succeed, so neither operand changes.
        rw [adjustForAddOrSub_same automatic level degree] at done
        cases done
        have there := adjustForAddOrSub_same automatic level.symm degree.symm
        exact .first there ⟨level.symm, degree.symm, rfl, rfl⟩
      · have kept := adjustScaleAndLevel_fails automatic self.NoiseFactor back
        rw [← adjustForAddOrSub_eq automatic] at kept
        exact .second kept done target

/-- A negated operand is aligned like the operand itself. -/
theorem Aligned.negate (automatic : cc.rescaleTechnique.isAutomatic)
    (aligned : Aligned self b x y) :
    ∃ negated, Aligned self b.negate x negated ∧ Signed (-1) y negated := by
  have related := negate_signed b
  cases aligned with
  | first done target => exact ⟨b.negate, .first done target, related⟩
  | second kept done target =>
      have outcome := SignedOutcome.adjustScaleAndLevel related self.NoiseLevel self.getLevel
        self.NoiseFactor
      rw [← adjustForAddOrSub_eq automatic, ← adjustForAddOrSub_eq automatic, done] at outcome
      obtain ⟨negated, moved, same⟩ := outcome.of_ok
      exact ⟨negated, .second kept moved ⟨same.level.trans target.level,
        same.NoiseLevel.trans target.degree, same.slots.trans (target.slots.trans related.slots.symm),
        same.keyID.trans (target.keyID.trans related.keyID.symm)⟩, same⟩

/-- An aligned pair under an automatic technique always keeps the promise. -/
theorem additionContract_automatic (automatic : cc.rescaleTechnique.isAutomatic)
    (validSelf : self.Valid) (validB : b.Valid) (sameKey : self.keyID = b.keyID) :
    AdditionContract self b := by
  obtain ⟨x, y, aligned⟩ := exists_aligned automatic validSelf validB
  obtain ⟨negated, other, related⟩ := aligned.negate automatic
  have fits := aligned.fits sameKey
  have swapped := aligned.swap automatic
  constructor
  · refine ⟨x, y, x.sum y, y.sum x, ?_, ?_, ?_, ?_, ?_, ?_⟩
    · simpa only [Operands, automatic, if_true] using aligned
    · exact add_eq_sum automatic sameKey aligned
    · exact add_eq_sum automatic sameKey.symm swapped
    · exact sum_isSumOf fits.level
    · exact sum_isSumOf aligned.sameLevel.ge
    · exact (sum_isSumOf fits.level).agrees (sum_isSumOf aligned.sameLevel.ge) fits.degree
        (max_comm _ _) fits.keyID.symm
  · refine ⟨x.difference y, x.sum negated, ?_, ?_, ?_⟩
    · exact sub_eq_difference automatic sameKey aligned
    · exact add_eq_sum automatic sameKey other
    · exact difference_agrees fits.level related

section Manual

variable (manual : ¬cc.rescaleTechnique.isAutomatic)

include manual

omit [Mul F] [Div F] [One F] in
/-- Without adjustment the first operand only drops the limbs that the second one lacks. -/
theorem lowered_fits (degree : self.NoiseLevel = b.NoiseLevel) (sameKey : self.keyID = b.keyID) :
    Fits (self.dropPolys b.getLevel) b where
  level := by
    change (if self.getLevel > b.getLevel then b.getLevel else self.getLevel) ≤ b.getLevel
    split_ifs <;> omega
  flexible := fun flexible =>
    absurd (RescaleTechnique.isAutomatic_iff.mpr (Or.inr flexible)) manual
  degree := degree
  keyID := sameKey

theorem dropForAdd_manual (allowed : cc.asserts → self.getLevel ≤ b.getLevel) :
    self.dropForAdd b = .ok (self.dropPolys b.getLevel) := by
  have rigid : ¬cc.rescaleTechnique.isFlexible := fun flexible =>
    manual (RescaleTechnique.isAutomatic_iff.mpr (Or.inr flexible))
  have passed : cc.check (self.getLevel ≤ b.getLevel) "this->getLevel() <= b.getLevel()" = .ok () :=
    ContextData.check_eq_ok_iff.mpr allowed
  by_cases higher : self.getLevel > b.getLevel
  · simp [dropForAdd, rigid, higher, passed, dropToLevel]
  · simp [dropForAdd, rigid, higher, dropPolys_of_le (not_lt.mp higher)]

omit [Mul F] [Div F] [One F] in
theorem dropForSub_manual : self.dropForSub b = .ok (self.dropPolys b.getLevel) := by
  have rigid : ¬cc.rescaleTechnique.isFlexible := fun flexible =>
    manual (RescaleTechnique.isAutomatic_iff.mpr (Or.inr flexible))
  by_cases higher : self.getLevel > b.getLevel
  · simp [dropForSub, rigid, higher]
  · simp [dropForSub, rigid, higher, dropPolys_of_le (not_lt.mp higher)]

theorem add_manual (allowed : cc.asserts → self.getLevel ≤ b.getLevel)
    (degree : self.NoiseLevel = b.NoiseLevel) (sameKey : self.keyID = b.keyID) (calls : Nat) :
    add (calls + 2) self b = .ok ((self.dropPolys b.getLevel).sum b) := by
  have fits := lowered_fits manual degree sameKey
  have finished := fits.addAligned (dropForAdd_manual manual allowed)
  simpa [add, withAdjusted, ContextData.check_ok sameKey, manual] using finished

theorem sub_manual (degree : self.NoiseLevel = b.NoiseLevel) (sameKey : self.keyID = b.keyID)
    (calls : Nat) : sub (calls + 2) self b = .ok ((self.dropPolys b.getLevel).difference b) := by
  have fits := lowered_fits manual degree sameKey
  have finished := fits.subAligned (dropForSub_manual manual)
  simpa [sub, withAdjusted, ContextData.check_ok sameKey, manual] using finished

omit [Mul F] [Div F] [One F] in
theorem sum_manual_isSumOf (degree : self.NoiseLevel = b.NoiseLevel)
    (sameKey : self.keyID = b.keyID) : IsSumOf self b ((self.dropPolys b.getLevel).sum b) := by
  have lowered := sum_isSumOf (lowered_fits manual degree sameKey).level
  refine ⟨?_, lowered.c0, lowered.c1, rfl⟩
  rw [lowered.level]
  change min (if self.getLevel > b.getLevel then b.getLevel else self.getLevel) b.getLevel = _
  split_ifs <;> omega

theorem additionContract_manual (sameKey : self.keyID = b.keyID)
    (degree : self.NoiseLevel = b.NoiseLevel)
    (level : cc.asserts → self.getLevel = b.getLevel) : AdditionContract self b := by
  have there := add_manual manual (fun on => (level on).le) degree sameKey
  have back := add_manual manual (fun on => (level on).ge) degree.symm sameKey.symm
  have first := sum_manual_isSumOf manual degree sameKey
  have second := sum_manual_isSumOf manual degree.symm sameKey.symm
  have negated := negate_signed b
  constructor
  · refine ⟨self, b, _, _, ?_, there, back, first, second, ?_⟩
    · simp [Operands, manual]
    · exact first.agrees second degree (max_comm _ _) sameKey.symm
  · refine ⟨_, _, sub_manual manual degree sameKey,
      add_manual manual (fun on => (level on).le) degree sameKey, ?_⟩
    exact difference_agrees (lowered_fits manual degree sameKey).level negated

/-- A build with assertions rejects a first operand of a higher level. -/
theorem add_higher_fails (on : cc.asserts) (higher : b.getLevel < self.getLevel) (calls : Nat)
    (result : Ciphertext cc) : add (calls + 2) self b ≠ .ok result := by
  have rigid : ¬cc.rescaleTechnique.isFlexible := fun flexible =>
    manual (RescaleTechnique.isAutomatic_iff.mpr (Or.inr flexible))
  have rejected : self.addAligned b =
      .error (.assertion "this->getLevel() <= b.getLevel()") := by
    simp [addAligned, dropForAdd, rigid, higher, ContextData.check, on]
  intro returned
  by_cases sameKey : self.keyID = b.keyID
  · simp [add, withAdjusted, ContextData.check_ok sameKey, manual, rejected] at returned
  · simp [add, withAdjusted, ContextData.check, on, sameKey] at returned

end Manual

/-- Every automatic technique keeps the promise. Without adjustment the degrees must be equal, and
in a build with assertions the levels too. -/
theorem addition_contract_iff (validSelf : self.Valid) (validB : b.Valid)
    (sameKey : self.keyID = b.keyID) :
    AdditionContract self b ↔ cc.rescaleTechnique.isAutomatic ∨
      self.NoiseLevel = b.NoiseLevel ∧ (cc.asserts → self.getLevel = b.getLevel) := by
  by_cases automatic : cc.rescaleTechnique.isAutomatic
  · simp only [automatic, true_or, iff_true]
    exact additionContract_automatic automatic validSelf validB sameKey
  · simp only [automatic, Bool.false_eq_true, false_or]
    constructor
    · intro contract
      obtain ⟨x, y, left, right, operands, there, back, first, second, same⟩ := contract.commutes
      simp only [Operands, automatic, Bool.false_eq_true, if_false] at operands
      obtain ⟨rfl, rfl⟩ := operands
      refine ⟨?_, ?_⟩
      · rw [← first.NoiseLevel, ← second.NoiseLevel, same.NoiseLevel]
      · intro on
        by_contra different
        rcases lt_or_gt_of_ne different with lower | higher
        · exact add_higher_fails automatic on lower 0 right (back 0)
        · exact add_higher_fails automatic on higher 0 left (there 0)
    · rintro ⟨degree, level⟩
      exact additionContract_manual automatic sameKey degree level

/-- Operands of different level and degree are adjusted, and equal ones need no adjustment. -/
theorem addition_contract_iff_smallContext :
    AdditionContract (zeroAt (smallContext .flexibleAuto true) 3 2)
        (zeroAt (smallContext .flexibleAuto true) 2 1) ∧
      AdditionContract (zeroAt (smallContext .fixedManual true) 2 1)
        (zeroAt (smallContext .fixedManual true) 2 1) := by
  have higher : (zeroAt (smallContext .flexibleAuto true) 3 2).Valid :=
    ⟨by decide, by decide, fun _ => Or.inr rfl⟩
  have lower : (zeroAt (smallContext .flexibleAuto true) 2 1).Valid :=
    ⟨by decide, by decide, fun _ => Or.inl rfl⟩
  have manual : (zeroAt (smallContext .fixedManual true) 2 1).Valid :=
    ⟨by decide, by decide, fun _ => Or.inl rfl⟩
  exact ⟨(addition_contract_iff higher lower rfl).mpr (Or.inl rfl),
    (addition_contract_iff manual manual rfl).mpr (Or.inr ⟨rfl, fun _ => rfl⟩)⟩

/-- Under the manual technique the assertion rejects one order of two different levels. -/
theorem manual_addition_rejects_order :
    ¬AdditionContract (zeroAt (smallContext .fixedManual true) 2 1)
      (zeroAt (smallContext .fixedManual true) 1 1) := by
  intro contract
  obtain ⟨x, y, left, right, operands, there, back, first, second, same⟩ := contract.commutes
  exact add_higher_fails (by decide) rfl (by decide) 0 left (there 0)

end Ciphertext
end Fideslib.CKKS
