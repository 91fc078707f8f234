/-
This file proves that the mutable operations return what the other forms return.
-/

import Fideslib.CKKS.Aliased
import Fideslib.CKKS.Plaintext

namespace Fideslib.CKKS

open ContextData (check_ok)

/-- Two computations return the same values, but their failures may carry different texts. -/
def SameValue {A : Type} (left right : Except Failure A) : Prop :=
  ∀ value, left = .ok value ↔ right = .ok value

namespace SameValue

variable {A : Type} {left right : Except Failure A}

theorem of_eq (equal : left = right) : SameValue left right := by
  intro value
  rw [equal]

theorem symm (same : SameValue left right) : SameValue right left :=
  fun value => (same value).symm

theorem errors (first second : Failure) :
    SameValue (.error first : Except Failure A) (.error second) := by
  intro value
  simp

end SameValue

namespace Ciphertext

variable {F : Type} [Mul F] [Div F] [One F] {cc : ContextData F}

/-- These operands are on the chain, as an automatic technique needs them. -/
def Ready (self b : Ciphertext cc) : Prop :=
  cc.rescaleTechnique.isAutomatic → self.Valid ∧ b.Valid

/-- This is a preparation of the first operand that an operation may repeat. -/
structure Preparation
    (drop finish : Ciphertext cc → Ciphertext cc → Except Failure (Ciphertext cc)) : Prop where
  keyID : ∀ {x y lowered}, drop x y = .ok lowered → lowered.keyID = x.keyID
  level : ∀ {x y}, x.getLevel = y.getLevel → drop x y = .ok x
  first : ∀ x y, (drop x y >>= fun lowered => finish lowered y) = finish x y

variable {self b x y lowered : Ciphertext cc}

omit [Mul F] [Div F] [One F] in
theorem dropPolys_level (level : Int) (above : level ≤ self.getLevel) :
    (self.dropPolys level).getLevel = level := by
  change (if self.c0.level > level then level else self.c0.level) = level
  change level ≤ self.c0.level at above
  split_ifs <;> omega

theorem dropForAdd_level (level : x.getLevel = y.getLevel) : x.dropForAdd y = .ok x := by
  by_cases flexible : cc.rescaleTechnique.isFlexible
  · simp [dropForAdd, flexible, check_ok level]
  · simp [dropForAdd, flexible, level]

omit [Mul F] [Div F] [One F] in
theorem dropForSub_level (level : x.getLevel = y.getLevel) : x.dropForSub y = .ok x := by
  by_cases flexible : cc.rescaleTechnique.isFlexible
  · simp [dropForSub, flexible, check_ok level]
  · simp [dropForSub, flexible, level]

/-- A successful drop keeps the tag, and dropping again changes nothing. -/
theorem dropForAdd_again (dropped : self.dropForAdd b = .ok lowered) :
    lowered.keyID = self.keyID ∧ lowered.dropForAdd b = .ok lowered := by
  by_cases flexible : cc.rescaleTechnique.isFlexible
  · cases checked : cc.check (self.getLevel = b.getLevel) "this->getLevel() == b.getLevel()" with
    | error failure => simp [dropForAdd, flexible, checked] at dropped
    | ok _ =>
        have same : self = lowered := by
          simpa [dropForAdd, flexible, checked, pure, Except.pure] using dropped
        rw [← same]
        exact ⟨rfl, by simp [dropForAdd, flexible, checked, pure, Except.pure]⟩
  · by_cases above : self.getLevel > b.getLevel
    · cases checked : cc.check (self.getLevel ≤ b.getLevel) "this->getLevel() <= b.getLevel()" with
      | error failure => simp [dropForAdd, flexible, above, checked] at dropped
      | ok _ =>
          have same : self.dropPolys b.getLevel = lowered := by
            simpa [dropForAdd, flexible, above, checked, dropToLevel] using dropped
          rw [← same]
          exact ⟨rfl, dropForAdd_level (dropPolys_level b.getLevel above.le)⟩
    · have same : self = lowered := by simpa [dropForAdd, flexible, above] using dropped
      rw [← same]
      exact ⟨rfl, by simp [dropForAdd, flexible, above]⟩

omit [Mul F] [Div F] [One F] in
theorem dropForSub_again (dropped : self.dropForSub b = .ok lowered) :
    lowered.keyID = self.keyID ∧ lowered.dropForSub b = .ok lowered := by
  by_cases flexible : cc.rescaleTechnique.isFlexible
  · cases checked : cc.check (self.getLevel = b.getLevel) "this->getLevel() == b.getLevel()" with
    | error failure => simp [dropForSub, flexible, checked] at dropped
    | ok _ =>
        have same : self = lowered := by
          simpa [dropForSub, flexible, checked, pure, Except.pure] using dropped
        rw [← same]
        exact ⟨rfl, by simp [dropForSub, flexible, checked, pure, Except.pure]⟩
  · by_cases above : self.getLevel > b.getLevel
    · have same : self.dropPolys b.getLevel = lowered := by
        simpa [dropForSub, flexible, above] using dropped
      rw [← same]
      exact ⟨rfl, dropForSub_level (dropPolys_level b.getLevel above.le)⟩
    · have same : self = lowered := by simpa [dropForSub, flexible, above] using dropped
      rw [← same]
      exact ⟨rfl, by simp [dropForSub, flexible, above]⟩

theorem addPreparation :
    Preparation (dropForAdd : Ciphertext cc → Ciphertext cc → Except Failure (Ciphertext cc))
      addAligned where
  keyID := fun dropped => (dropForAdd_again dropped).1
  level := dropForAdd_level
  first := by
    intro x y
    cases dropped : x.dropForAdd y with
    | error failure => simp [addAligned, dropped]
    | ok lowered => simp [addAligned, dropped, (dropForAdd_again dropped).2]

omit [Mul F] [Div F] [One F] in
theorem subPreparation :
    Preparation (dropForSub : Ciphertext cc → Ciphertext cc → Except Failure (Ciphertext cc))
      subAligned where
  keyID := fun dropped => (dropForSub_again dropped).1
  level := dropForSub_level
  first := by
    intro x y
    cases dropped : x.dropForSub y with
    | error failure => simp [subAligned, dropped]
    | ok lowered => simp [subAligned, dropped, (dropForSub_again dropped).2]

/-- Without an automatic technique the operation is its final step. -/
theorem withAdjusted_of_manual (manual : ¬cc.rescaleTechnique.isAutomatic)
    (tagged : cc.check (self.keyID = b.keyID) "keyID == b.keyID" = .ok ()) (op : String)
    (finish : Ciphertext cc → Ciphertext cc → Except Failure (Ciphertext cc)) (calls : Nat) :
    withAdjusted op finish (calls + 1) self b = finish self b := by
  simp [withAdjusted, tagged, manual]

/-- The mutable form of two objects returns what the other form returns. -/
theorem withBothAdjusted_value
    {drop finish : Ciphertext cc → Ciphertext cc → Except Failure (Ciphertext cc)}
    (preparation : Preparation drop finish) (ready : Ready self b) (op other operandKind : String)
    (calls : Nat) :
    Prod.fst <$> withBothAdjusted other operandKind drop (withAdjusted op finish (calls + 1)) self b =
      withAdjusted op finish (calls + 2) self b := by
  cases tagged : cc.check (self.keyID = b.keyID) "keyID == b.keyID" with
  | error failure =>
      simp [withBothAdjusted, withAdjusted, tagged]
  | ok _ =>
      by_cases automatic : cc.rescaleTechnique.isAutomatic
      · obtain ⟨validSelf, validB⟩ := ready automatic
        obtain ⟨x, y, aligned⟩ := exists_aligned automatic validSelf validB
        cases aligned with
        | first done target =>
            have again := tagged
            rw [← target.keyID] at again
            have finished := withAdjusted_of_ready automatic again target.level target.degree op
              finish calls
            rw [withBothAdjusted, withAdjusted]
            simp [tagged, automatic, done, preparation.level target.level, finished]
        | second kept done target =>
            rw [withBothAdjusted, withAdjusted]
            simp [tagged, automatic, kept, done]
      · rw [withAdjusted_of_manual automatic tagged, ← preparation.first, withBothAdjusted]
        cases dropped : drop self b with
        | error failure => simp [tagged, automatic]
        | ok lowered =>
            have again := tagged
            rw [← preparation.keyID dropped] at again
            simp [tagged, automatic, withAdjusted_of_manual automatic again]

theorem addMutable_value (ready : Ready self b) {calls : Nat} (enough : 2 ≤ calls) :
    Prod.fst <$> addMutable calls self b = add calls self b := by
  obtain ⟨calls, rfl⟩ := Nat.exists_eq_add_of_le' enough
  exact withBothAdjusted_value addPreparation ready "add" "addMutable" "ciphertext" calls

theorem subMutable_value (ready : Ready self b) {calls : Nat} (enough : 2 ≤ calls) :
    Prod.fst <$> subMutable calls self b = sub calls self b := by
  obtain ⟨calls, rfl⟩ := Nat.exists_eq_add_of_le' enough
  exact withBothAdjusted_value subPreparation ready "sub" "addPt" "plaintext" calls

omit [Mul F] [Div F] [One F] in
theorem Valid.adoptKey (valid : self.Valid) (b : Ciphertext cc) : (self.adoptKey b).Valid := by
  rw [Ciphertext.adoptKey]
  split_ifs
  · exact ⟨valid.level_nonneg, valid.level_le, valid.degree⟩
  · exact valid

theorem mult_of_manual (keys : String → Option (EvalKey cc))
    (manual : ¬cc.rescaleTechnique.isAutomatic)
    (tagged : cc.check (self.keyID = b.keyID) "keyID == b.keyID" = .ok ()) (calls : Nat)
    (rescale : Bool) :
    mult keys (calls + 1) self b rescale = multAligned keys (self.adoptKey b) b rescale := by
  simp [mult, tagged, manual]

omit [One F] in
/-- A drop before the product changes nothing, because the product drops its first factor. -/
theorem multAligned_dropped (keys : String → Option (EvalKey cc)) (self b : Ciphertext cc)
    (rescale : Bool) (manual : cc.rescaleTechnique = .fixedManual)
    (above : self.getLevel > b.getLevel) :
    multAligned keys (self.dropPolys b.getLevel) b rescale = multAligned keys self b rescale := by
  have low : ¬(self.dropPolys b.getLevel).getLevel > b.getLevel :=
    (dropPolys_level b.getLevel above.le).not_gt
  simp [multAligned, manual, above, low]

/-- The mutable product without an automatic technique is the product. -/
theorem multMutable_of_manual (keys : String → Option (EvalKey cc))
    (manual : ¬cc.rescaleTechnique.isAutomatic)
    (tagged : cc.check (self.keyID = b.keyID) "keyID == b.keyID" = .ok ()) (calls : Nat)
    (rescale : Bool) :
    Prod.fst <$> multMutable keys (calls + 2) self b rescale =
      multAligned keys (self.adoptKey b) b rescale := by
  have notAuto : cc.rescaleTechnique ≠ .fixedAuto := by
    intro fixed
    simp [fixed, RescaleTechnique.isAutomatic] at manual
  have finished : ∀ x : Ciphertext cc, x.keyID = (self.adoptKey b).keyID →
      mult keys (calls + 1) x b rescale = multAligned keys x b rescale := by
    intro x tag
    obtain ⟨retagged, adopted⟩ := adoptKey_again tagged tag rfl
    rw [mult_of_manual keys manual retagged, adopted]
  by_cases dropped : cc.rescaleTechnique = .fixedManual ∧ (self.adoptKey b).getLevel > b.getLevel
  · have low : ((self.adoptKey b).dropPolys b.getLevel).getLevel ≤ b.getLevel :=
      (dropPolys_level b.getLevel dropped.2.le).le
    have product := finished ((self.adoptKey b).dropPolys b.getLevel) rfl
    rw [← multAligned_dropped keys _ b rescale dropped.1 dropped.2,
      ← multAligned_checks keys (Or.inl low) rescale, multMutable]
    simp [tagged, RescaleTechnique.isAutomatic, dropped, product]
  · have low : (self.adoptKey b).getLevel ≤ b.getLevel ∨
        ¬(cc.rescaleTechnique = .fixedManual ∨ cc.rescaleTechnique = .fixedAuto) := by
      by_cases fixed : cc.rescaleTechnique = .fixedManual
      · exact Or.inl (not_lt.mp fun above => dropped ⟨fixed, above⟩)
      · exact Or.inr (by simp [fixed, notAuto])
    have product := finished (self.adoptKey b) rfl
    rw [← multAligned_checks keys low rescale, multMutable]
    simp only [tagged, manual, if_neg dropped, ok_bind]
    simp [product]

theorem multMutable_value (keys : String → Option (EvalKey cc)) (ready : Ready self b)
    {calls : Nat} (enough : 2 ≤ calls) (rescale : Bool) :
    Prod.fst <$> multMutable keys calls self b rescale = mult keys calls self b rescale := by
  obtain ⟨calls, rfl⟩ := Nat.exists_eq_add_of_le' enough
  cases tagged : cc.check (self.keyID = b.keyID) "keyID == b.keyID" with
  | error failure => simp [multMutable, mult, tagged]
  | ok _ =>
      by_cases automatic : cc.rescaleTechnique.isAutomatic
      · obtain ⟨validSelf, validB⟩ := ready automatic
        obtain ⟨x, y, aligned⟩ := exists_aligned automatic (validSelf.adoptKey b) validB
        have possible : x.NoiseLevel = 1 ∨ x.NoiseLevel = 2 := by
          rcases aligned.fromOperand with ⟨-, degree⟩ | ⟨-, degree⟩
          · exact degree ▸ (validSelf.adoptKey b).degree automatic
          · exact degree ▸ validB.degree automatic
        have one := reduceDegree_degree possible
        have other := reduceDegree_degree (aligned.sameDegree ▸ possible)
        have level := reduceDegree_sameLevel aligned.sameLevel aligned.sameDegree
        obtain ⟨retagged, adopted⟩ := adoptKey_again tagged
          (reduceDegree_keyID.trans aligned.keyID.1) (reduceDegree_keyID.trans aligned.keyID.2)
        have product := mult_eq_multAligned automatic keys tagged aligned possible calls rescale
        have finished := mult_of_ready automatic keys retagged adopted level one other calls rescale
        obtain ⟨owned, computed, second⟩ := alignForMult_reduces aligned
        rw [product, multMutable]
        simp [tagged, automatic, computed, second, check_ok one,
          check_ok (one.trans other.symm), finished]
      · rw [multMutable_of_manual keys automatic tagged, mult_of_manual keys automatic tagged]

/-- The mutable product of one object agrees with the product unless both rescale the object. -/
theorem multMutableSelf_sameValue_iff (keys : String → Option (EvalKey cc)) {calls : Nat}
    (enough : 2 ≤ calls) (self : Ciphertext cc) :
    SameValue (multMutableSelf keys calls self false) (mult keys calls self self false) ↔
      (cc.rescaleTechnique.isAutomatic → self.NoiseLevel = 2 → keys self.keyID = none) := by
  by_cases twice : cc.rescaleTechnique.isAutomatic ∧ self.NoiseLevel = 2
  · obtain ⟨calls, rfl⟩ := Nat.exists_eq_add_of_le' enough
    obtain ⟨automatic, two⟩ := twice
    constructor
    · intro same _ _
      rcases mult_self_two keys automatic two calls with ⟨missing, -⟩ | ⟨result, done, degree⟩
      · exact missing
      · have zero := (multMutableSelf_degree keys automatic two ((same result).mpr done)).2
        omega
    · intro missing value
      constructor
      · intro done
        have found := (multMutableSelf_degree keys automatic two done).1
        exact absurd (missing automatic two) found
      · intro done
        rcases mult_self_two keys automatic two calls with ⟨-, failed⟩ | ⟨result, returned, -⟩
        · rw [failed] at done
          cases done
        · rw [mult_eq_multAligned automatic keys (check_ok rfl)
            (aligned_self automatic) (Or.inr two)] at done
          have found := (multAligned_degree done).1
          rw [reduceDegree_keyID] at found
          exact absurd (missing automatic two) found
  · have single : cc.rescaleTechnique.isAutomatic → self.NoiseLevel ≠ 2 :=
      fun automatic two => twice ⟨automatic, two⟩
    rw [multMutableSelf_eq_mult keys single enough]
    exact ⟨fun _ automatic two => absurd two (single automatic), fun _ => SameValue.of_eq rfl⟩

/-- A valid plaintext lies on the modulus chain with degree one or two. -/
structure ValidPlaintext (b : Plaintext cc) : Prop where
  level_nonneg : 0 ≤ b.c0.level
  degree : b.NoiseLevel = 1 ∨ b.NoiseLevel = 2

def ReadyPt (self : Ciphertext cc) (b : Plaintext cc) : Prop :=
  cc.rescaleTechnique.isAutomatic → self.Valid ∧ ValidPlaintext b

variable {adjusted : Ciphertext cc} {pt : Plaintext cc}

theorem adjustCiphertextToPlaintext_eq (automatic : cc.rescaleTechnique.isAutomatic) :
    self.adjustCiphertextToPlaintext pt =
      self.adjustScaleAndLevel pt.NoiseLevel pt.c0.level pt.NoiseFactor := by
  simp only [adjustCiphertextToPlaintext, automatic, if_true]

/-- A successful adjustment reaches the degree and the level of the plaintext. -/
theorem adjustCiphertextToPlaintext_reaches (automatic : cc.rescaleTechnique.isAutomatic)
    (valid : self.Valid) (validPt : ValidPlaintext pt)
    (done : self.adjustCiphertextToPlaintext pt = .ok (adjusted, true)) :
    AdjustedTo pt.NoiseLevel pt.c0.level self adjusted := by
  rw [adjustCiphertextToPlaintext_eq automatic] at done
  by_cases reach : self.CanReach pt.NoiseLevel pt.c0.level
  · obtain ⟨result, computed, target⟩ :=
      adjustScaleAndLevel_succeeds automatic valid validPt.degree pt.NoiseFactor reach
    rw [computed] at done
    have same : result = adjusted := congrArg Prod.fst (Except.ok.inj done)
    exact same ▸ target
  · rw [adjustScaleAndLevel_fails automatic pt.NoiseFactor reach] at done
    cases done

theorem adjustCiphertextToPlaintext_same (automatic : cc.rescaleTechnique.isAutomatic)
    (level : self.getLevel = pt.c0.level) (degree : self.NoiseLevel = pt.NoiseLevel) :
    self.adjustCiphertextToPlaintext pt = .ok (self, true) := by
  rw [adjustCiphertextToPlaintext_eq automatic, ← level, ← degree]
  exact adjustScaleAndLevel_same automatic pt.NoiseFactor

omit [Mul F] [One F] in
theorem Valid.stepDownTo (valid : self.Valid) (validPt : ValidPlaintext pt) :
    (self.stepDownTo pt).Valid := by
  rw [Ciphertext.stepDownTo]
  split_ifs with step
  · have next := (AdjustedTo.start self).rescaleInternal valid.level_le
    have level := next.level
    have degree := next.degree
    have inside := valid.level_le
    have start := validPt.level_nonneg
    refine ⟨by omega, by omega, fun _ => Or.inl ?_⟩
    rw [degree, step.2.1]
    rfl
  · exact valid

omit [Mul F] [One F] in
theorem stepDownTo_same (degree : self.NoiseLevel = pt.NoiseLevel) : self.stepDownTo pt = self := by
  rw [stepDownTo, if_neg]
  rintro ⟨one, two, -⟩
  omega

/-- An adjusted ciphertext meets its plaintext at once. -/
theorem withAdjustedPt_of_ready (automatic : cc.rescaleTechnique.isAutomatic)
    (level : self.getLevel = pt.c0.level) (degree : self.NoiseLevel = pt.NoiseLevel) (op : String)
    (finish : Ciphertext cc → Plaintext cc → Except Failure (Ciphertext cc)) (calls : Nat) :
    withAdjustedPt op finish (calls + 1) self pt = finish self pt := by
  simp [withAdjustedPt, automatic, stepDownTo_same degree,
    adjustCiphertextToPlaintext_same automatic level degree]

omit [Mul F] [Div F] [One F] in
/-- The final step repeats the check of the mutable form. -/
theorem combinePt_checked (combine : RNSPoly cc → RNSPoly cc → RNSPoly cc)
    (keepsLevel : ∀ poly p, (combine poly p).level = poly.level) (self : Ciphertext cc)
    (pt : Plaintext cc) :
    (do cc.check (self.NoiseLevel = pt.NoiseLevel) "NoiseLevel == b.NoiseLevel"
        combinePt combine keepsLevel self pt) = combinePt combine keepsLevel self pt := by
  rw [combinePt]
  cases same : cc.check (self.NoiseLevel = pt.NoiseLevel) "NoiseLevel == b.NoiseLevel" with
  | error failure => simp
  | ok _ => simp only [ok_bind]

theorem withBothAdjustedPt_value {combine : RNSPoly cc → RNSPoly cc → RNSPoly cc}
    {keepsLevel : ∀ poly p, (combine poly p).level = poly.level} (ready : ReadyPt self pt)
    (op other : String) (calls : Nat) :
    SameValue (Prod.fst <$> withBothAdjustedPt other
        (withAdjustedPt op (combinePt combine keepsLevel) (calls + 1)) self pt)
      (withAdjustedPt op (combinePt combine keepsLevel) (calls + 2) self pt) := by
  by_cases automatic : cc.rescaleTechnique.isAutomatic
  · obtain ⟨valid, validPt⟩ := ready automatic
    rw [withBothAdjustedPt, if_pos automatic, withAdjustedPt, if_pos automatic]
    cases done : (self.stepDownTo pt).adjustCiphertextToPlaintext pt with
    | error failure =>
        apply SameValue.of_eq
        simp
    | ok result =>
        obtain ⟨adjusted, ok⟩ := result
        cases ok with
        | true =>
            have target := adjustCiphertextToPlaintext_reaches automatic (valid.stepDownTo validPt)
              validPt done
            have finished := withAdjustedPt_of_ready automatic target.level target.degree op
              (combinePt combine keepsLevel) calls
            apply SameValue.of_eq
            simp [check_ok target.degree, finished]
        | false =>
            cases back : pt.adjustPlaintextToCiphertext adjusted with
            | error failure =>
                apply SameValue.of_eq
                simp [back]
            | ok result =>
                obtain ⟨b_, adjustedToo⟩ := result
                intro value
                cases adjustedToo <;> simp [back]
  · have checked := combinePt_checked combine keepsLevel self pt
    apply SameValue.of_eq
    rw [withBothAdjustedPt, if_neg automatic, withAdjustedPt, if_neg automatic, withAdjustedPt,
      if_neg automatic]
    simpa using checked

theorem addPtMutable_value (ready : ReadyPt self pt) {calls : Nat} (enough : 2 ≤ calls) :
    SameValue (Prod.fst <$> addPtMutable calls self pt) (addPt calls self pt) := by
  obtain ⟨calls, rfl⟩ := Nat.exists_eq_add_of_le' enough
  exact withBothAdjustedPt_value ready "addPt" "addPtMutable" calls

theorem subPtMutable_value (ready : ReadyPt self pt) {calls : Nat} (enough : 2 ≤ calls) :
    SameValue (Prod.fst <$> subPtMutable calls self pt) (subPt calls self pt) := by
  obtain ⟨calls, rfl⟩ := Nat.exists_eq_add_of_le' enough
  exact withBothAdjustedPt_value ready "subPt" "subPtMutable" calls

omit [Mul F] [One F] in
theorem reduceDegree_same (single : self.NoiseLevel ≠ 2) : self.reduceDegree = self := by
  rw [reduceDegree, if_neg single]

/-- A ciphertext of degree one is multiplied with its plaintext at once. -/
theorem multPt_of_ready (automatic : cc.rescaleTechnique.isAutomatic)
    (level : self.getLevel = pt.c0.level) (one : self.NoiseLevel = 1) (other : pt.NoiseLevel = 1)
    (calls : Nat) : multPt (calls + 1) self pt = multReadyPt self pt := by
  have single : self.NoiseLevel ≠ 2 := by omega
  simp [multPt, automatic, adjustCiphertextToPlaintext_same automatic level (one.trans other.symm),
    other, reduceDegree_same single]

omit [Div F] [One F] in
theorem multReadyPt_checked (self : Ciphertext cc) (pt : Plaintext cc) :
    (do cc.check (self.NoiseLevel < 2) "NoiseLevel < 2"
        cc.check (pt.NoiseLevel < 2) "b.NoiseLevel < 2"
        multReadyPt self pt) = multReadyPt self pt := by
  rw [multReadyPt]
  cases first : cc.check (self.NoiseLevel < 2) "NoiseLevel < 2" with
  | error failure => simp
  | ok _ =>
      cases second : cc.check (pt.NoiseLevel < 2) "b.NoiseLevel < 2" with
      | error failure => simp
      | ok _ => simp only [ok_bind]

/-- The two products with a plaintext differ only in when a degree of two is reduced. -/
theorem multPtMutable_value (ready : ReadyPt self pt)
    (single : cc.rescaleTechnique.isAutomatic → self.NoiseLevel ≠ 2) {calls : Nat}
    (enough : 2 ≤ calls) :
    SameValue (Prod.fst <$> multPtMutable calls self pt) (multPt calls self pt) := by
  obtain ⟨calls, rfl⟩ := Nat.exists_eq_add_of_le' enough
  by_cases automatic : cc.rescaleTechnique.isAutomatic
  · obtain ⟨valid, validPt⟩ := ready automatic
    rw [multPtMutable, if_pos automatic, multPt, if_pos automatic,
      reduceDegree_same (single automatic)]
    cases done : self.adjustCiphertextToPlaintext pt with
    | error failure =>
        apply SameValue.of_eq
        simp
    | ok result =>
        obtain ⟨adjusted, ok⟩ := result
        by_cases again : ok = false ∨ pt.NoiseLevel ≠ 1
        · cases back : pt.adjustPlaintextToCiphertext adjusted with
          | error failure =>
              apply SameValue.of_eq
              simp [again, back]
          | ok result =>
              obtain ⟨b_, adjustedToo⟩ := result
              intro value
              by_cases two : b_.NoiseLevel = 2
              · cases adjustedToo <;> simp [again, back, two]
              · cases adjustedToo <;> simp [again, back, two]
        · obtain ⟨succeeded, one⟩ : ok = true ∧ pt.NoiseLevel = 1 := by simpa using again
          subst succeeded
          have target := adjustCiphertextToPlaintext_reaches automatic valid validPt done
          have degree : adjusted.NoiseLevel = 1 := target.degree.trans one
          have kept : adjusted.reduceDegree = adjusted := reduceDegree_same (by omega)
          have finished := multPt_of_ready automatic target.level degree one calls
          have checked := multReadyPt_checked adjusted pt
          apply SameValue.of_eq
          simpa [one, kept, finished] using checked
  · have checked := multReadyPt_checked self pt
    apply SameValue.of_eq
    rw [multPtMutable, if_neg automatic, multPt, if_neg automatic, multPt, if_neg automatic]
    simpa using checked

end Ciphertext
end Fideslib.CKKS
