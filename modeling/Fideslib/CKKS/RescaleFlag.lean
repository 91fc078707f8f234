/-
This file models the operations that take a rescale flag and proves what the flag does.
-/

import Fideslib.CKKS.AliasedContract

namespace Fideslib.CKKS

open ContextData (check_ok)

variable {F : Type} [Mul F] [Div F] [One F] {cc : ContextData F}

/-- The fused product divides out the top limb of the product. -/
def RNSPoly.multPt (poly p : RNSPoly cc) (rescale : Bool) : RNSPoly cc :=
  let product := poly.mapLimbs fun id limb => limb * p.limb id
  if rescale then product.rescaleTo (poly.level - 1) else product

/-- This polynomial has one coefficient at each end of a half. -/
def BuildConstant2 (level : Int) (coef0 coef1 : (id : Nat) → ZMod (cc.prime id)) : RNSPoly cc where
  level := level
  limb := fun id => cc.ntt id fun j =>
    if j.val = 0 then coef0 id else if 2 * j.val = cc.N then coef1 id else 0

omit [Mul F] [Div F] [One F] in
theorem RNSPoly.multPt_level (poly p : RNSPoly cc) (rescale : Bool) :
    (poly.multPt p rescale).level = if rescale then poly.level - 1 else poly.level := by
  unfold multPt
  split_ifs <;> rfl

namespace Ciphertext

def multPolysPtWith (self : Ciphertext cc) (b : Plaintext cc) (rescale : Bool) : Ciphertext cc :=
  { self with
    c0 := self.c0.multPt b.c0 rescale
    c1 := self.c1.multPt b.c0 rescale
    sameLevel := by rw [RNSPoly.multPt_level, RNSPoly.multPt_level, self.sameLevel] }

/-- The polynomials are rescaled by the product, and the metadata after it. -/
def multReadyPtWith (self : Ciphertext cc) (b : Plaintext cc) (rescale : Bool) :
    Except Failure (Ciphertext cc) := do
  cc.check (self.NoiseLevel < 2) "NoiseLevel < 2"
  cc.check (b.NoiseLevel < 2) "b.NoiseLevel < 2"
  let fused : Bool := rescale ∧ cc.rescaleTechnique = .fixedManual
  let multiplied := self.multPolysPtWith b fused
  let product ← multiplied.multMetadataPt multiplied b
  return if fused then product.withNoise (product.NoiseLevel - 1)
      (product.NoiseFactor / cc.ModReduceFactor (product.getLevel + 1))
    else product

/-- The call on the adjusted plaintext passes the flag on. -/
def multPtWith : Nat → Ciphertext cc → Plaintext cc → Bool → Except Failure (Ciphertext cc)
  | 0, _, _, _ => .error .exhausted
  | calls + 1, self, b, rescale =>
      if cc.rescaleTechnique.isAutomatic then do
        let (adjusted, ok) ← self.adjustCiphertextToPlaintext b
        if ok = false ∨ b.NoiseLevel ≠ 1 then
          let (b_, adjustedToo) ← b.adjustPlaintextToCiphertext adjusted
          if adjustedToo then
            let b_ ← if b_.NoiseLevel = 2 then b_.rescale else pure b_
            multPtWith calls adjusted.reduceDegree b_ rescale
          else .error (.adjust "multPt" adjusted.getLevel adjusted.NoiseLevel b.c0.level
            b.NoiseLevel "plaintext")
        else multReadyPtWith adjusted.reduceDegree b rescale
      else multReadyPtWith self b rescale

def multPolys (self : Ciphertext cc) (p : RNSPoly cc) : Ciphertext cc :=
  { self with
    c0 := self.c0.mapLimbs fun id limb => limb * p.limb id
    c1 := self.c1.mapLimbs fun id limb => limb * p.limb id
    sameLevel := self.sameLevel }

/-- A complex constant is a polynomial, so its product makes no check of the degree. -/
def multScalarComplex (self : Ciphertext cc) (re im : F) (rescale : Bool) : Ciphertext cc :=
  let ready :=
    if cc.rescaleTechnique ≠ .fixedManual ∧ self.NoiseLevel = 2 then self.rescaleInternal else self
  let level := ready.getLevel
  let constant := BuildConstant2 level (cc.ElemForEvalMult level re) (cc.ElemForEvalMult level im)
  let scaled := (ready.multPolys constant).withNoise (ready.NoiseLevel + 1)
    (ready.NoiseFactor * cc.ScalingFactorReal level)
  if rescale ∧ cc.rescaleTechnique = .fixedManual then scaled.rescaleInternal else scaled

/-- The receiver already holds a product, and gains another one. -/
def addMultPt (self c : Ciphertext cc) (b : Plaintext cc) (rescale : Bool) :
    Except Failure (Ciphertext cc) := do
  cc.check (self.NoiseLevel = 2) "NoiseLevel == 2"
  cc.check (c.NoiseLevel = 1) "c.NoiseLevel == 1"
  cc.check (b.NoiseLevel = 1) "b.NoiseLevel == 1"
  cc.check (self.c0.level ≤ b.c0.level ∧ self.c0.level ≤ c.c0.level)
    "level <= poly1.level && level <= poly.level"
  cc.check (self.c1.level ≤ b.c0.level ∧ self.c1.level ≤ c.c1.level)
    "level <= poly1.level && level <= poly.level"
  let added : Ciphertext cc :=
    { self with
      c0 := self.c0.mapLimbs fun id limb => limb + c.c0.limb id * b.c0.limb id
      c1 := self.c1.mapLimbs fun id limb => limb + c.c1.limb id * b.c0.limb id
      sameLevel := self.sameLevel }
  return if rescale ∧ cc.rescaleTechnique = .fixedManual then added.rescaleInternal else added

/-- These operations take a rescale flag. -/
inductive FlaggedOperation (cc : ContextData F)
  | mult (b : Ciphertext cc)
  | square
  | multPt (b : Plaintext cc)
  | multScalar (c : F)
  | multScalarNoPrecheck (c : F)
  | multScalarComplex (re im : F)
  | addMultPt (c : Ciphertext cc) (b : Plaintext cc)

namespace FlaggedOperation

def perform (keys : String → Option (EvalKey cc)) (calls : Nat) (self : Ciphertext cc)
    (operation : FlaggedOperation cc) (rescale : Bool) : Except Failure (Ciphertext cc) :=
  match operation with
  | .mult b => Ciphertext.mult keys calls self b rescale
  | .square => squareSelf keys calls self rescale
  | .multPt b => multPtWith calls self b rescale
  | .multScalar c => self.multScalar c rescale
  | .multScalarNoPrecheck c => .ok (self.multScalarNoPrecheck c rescale)
  | .multScalarComplex re im => .ok (self.multScalarComplex re im rescale)
  | .addMultPt c b => self.addMultPt c b rescale

/-- The factors have degree one, and the receiver of an accumulation already holds a product. -/
def Operands (keys : String → Option (EvalKey cc)) (self : Ciphertext cc) :
    FlaggedOperation cc → Prop
  | .mult b => self.NoiseLevel = 1 ∧ b.NoiseLevel = 1 ∧ 1 ≤ self.getLevel ∧ 1 ≤ b.getLevel ∧
      self.keyID = b.keyID ∧ keys self.keyID ≠ none
  | .square => self.NoiseLevel = 1 ∧ 1 ≤ self.getLevel ∧ keys self.keyID ≠ none
  | .multPt b => self.NoiseLevel = 1 ∧ b.NoiseLevel = 1 ∧ 1 ≤ self.getLevel ∧
      self.getLevel ≤ b.c0.level
  | .multScalar _ | .multScalarNoPrecheck _ | .multScalarComplex _ _ =>
      self.NoiseLevel = 1 ∧ 1 ≤ self.getLevel
  | .addMultPt c b => self.NoiseLevel = 2 ∧ c.NoiseLevel = 1 ∧ b.NoiseLevel = 1 ∧
      1 ≤ self.getLevel ∧ self.getLevel ≤ c.getLevel ∧ self.getLevel ≤ b.c0.level

/-- A product of two ciphertexts works at the lower level. -/
def level (self : Ciphertext cc) : FlaggedOperation cc → Int
  | .mult b => min self.getLevel b.getLevel
  | _ => self.getLevel

def isReal : FlaggedOperation cc → Bool
  | .multScalar _ | .multScalarNoPrecheck _ => true
  | _ => false

/-- The flag alone decides whether the level drops and the degree stays one. -/
def FlagContract (keys : String → Option (EvalKey cc)) (self : Ciphertext cc)
    (operation : FlaggedOperation cc) (rescale : Bool) : Prop :=
  ∃ result, (∀ calls, 1 ≤ calls → operation.perform keys calls self rescale = .ok result) ∧
    result.getLevel = operation.level self - (if rescale then 1 else 0) ∧
    result.NoiseLevel = if rescale then 1 else 2

end FlaggedOperation

omit [Mul F] [Div F] [One F] in
theorem multPolysPtWith_false (self : Ciphertext cc) (b : Plaintext cc) :
    self.multPolysPtWith b false = self.multPolysPt b := rfl

section Manual

variable {self b x : Ciphertext cc} {keys : String → Option (EvalKey cc)}

/-- The result dropped one level and one degree when the flag is set. -/
structure Flagged (level : Int) (rescale : Bool) (result : Ciphertext cc) : Prop where
  level : result.getLevel = level - (if rescale then 1 else 0)
  degree : result.NoiseLevel = if rescale then 1 else 2

omit [Mul F] [Div F] [One F] in
theorem manual_rescaledLevel (manual : cc.rescaleTechnique = .fixedManual) (level : Int) :
    RNSPoly.rescaledLevel cc level = level - 1 := by
  simp [RNSPoly.rescaledLevel, manual]

omit [Mul F] [One F] in
/-- A product of degree two is rescaled by its operation when the flag is set. -/
theorem Flagged.of_product (manual : cc.rescaleTechnique = .fixedManual) {product : Ciphertext cc}
    {level : Int} (reached : product.getLevel = level) (two : product.NoiseLevel = 2)
    (rescale : Bool) :
    Flagged level rescale (if rescale ∧ cc.rescaleTechnique = .fixedManual
      then product.rescaleInternal else product) := by
  rw [← reached]
  cases rescale with
  | false => exact ⟨(Int.sub_zero _).symm, two⟩
  | true =>
      rw [if_pos ⟨rfl, manual⟩]
      refine ⟨manual_rescaledLevel manual product.getLevel, ?_⟩
      change product.NoiseLevel - 1 = 1
      omega

omit [One F] in
/-- Two factors of degree one are multiplied at the level of the first. -/
theorem multAligned_low (manual : cc.rescaleTechnique = .fixedManual) (one : self.NoiseLevel = 1)
    (other : b.NoiseLevel = 1) (sameKey : self.keyID = b.keyID) (found : keys self.keyID ≠ none)
    (low : self.getLevel ≤ b.getLevel) (rescale : Bool) :
    ∃ result, multAligned keys self b rescale = .ok result ∧
      Flagged self.getLevel rescale result := by
  obtain ⟨kskEval, key⟩ := Option.ne_none_iff_exists'.mp found
  have kept : ¬self.getLevel > b.getLevel := not_lt.mpr low
  have degree : self.NoiseLevel = b.NoiseLevel := one.trans other.symm
  let parts := RNSPoly.binomialMult self.c0 self.c1 b.c0 b.c1
  have first : parts.1.level ≤ (kskEval.keySwitchCore parts.2.2).1.level := by
    rw [kskEval.level_fst]
    exact self.sameLevel.ge
  have second : parts.2.1.level ≤ (kskEval.keySwitchCore parts.2.2).2.level := by
    rw [kskEval.level_snd]
    rfl
  have notFlexible : ¬cc.rescaleTechnique.isFlexible := by
    rw [manual]
    decide
  let multiplied := self.relinearize kskEval b
  have tag : multiplied.keyID = b.keyID := sameKey
  let product : Ciphertext cc := { multiplied with
      slots := max multiplied.slots b.slots
      NoiseLevel := multiplied.NoiseLevel + b.NoiseLevel
      NoiseFactor := multiplied.NoiseFactor * b.NoiseFactor }
  have metadata : multiplied.multMetadata multiplied b = .ok product := by
    simp [multMetadata, notFlexible, check_ok tag, check_ok, product]
  have two : product.NoiseLevel = 2 := by
    change self.NoiseLevel + b.NoiseLevel = 2
    omega
  refine ⟨_, ?_, Flagged.of_product manual rfl two rescale⟩
  simp only [multAligned, kept, key, and_false, if_false, check_ok one,
    check_ok degree, ok_bind]
  rw [check_ok first, ok_bind, check_ok second, ok_bind, metadata, ok_bind]
  rfl

omit [One F] in
theorem multAligned_flagged (manual : cc.rescaleTechnique = .fixedManual) (one : self.NoiseLevel = 1)
    (other : b.NoiseLevel = 1) (sameKey : self.keyID = b.keyID) (found : keys self.keyID ≠ none)
    (rescale : Bool) :
    ∃ result, multAligned keys self b rescale = .ok result ∧
      Flagged (min self.getLevel b.getLevel) rescale result := by
  by_cases above : self.getLevel > b.getLevel
  · have level := dropPolys_level b.getLevel above.le
    obtain ⟨result, done, flagged⟩ := @multAligned_low _ _ _ _ (self.dropPolys b.getLevel) b keys
      manual one other sameKey found level.le rescale
    rw [level] at flagged
    rw [← multAligned_dropped keys self b rescale manual above, min_eq_right above.le]
    exact ⟨result, done, flagged⟩
  · rw [min_eq_left (not_lt.mp above)]
    exact multAligned_low manual one other sameKey found (not_lt.mp above) rescale

omit [Div F] [One F] in
theorem multMetadataPt_self (multiplied : Ciphertext cc) (pt : Plaintext cc) :
    multiplied.multMetadataPt multiplied pt = .ok { multiplied with
      slots := max multiplied.slots pt.slots
      NoiseLevel := multiplied.NoiseLevel + pt.NoiseLevel
      NoiseFactor := multiplied.NoiseFactor * pt.NoiseFactor } := by
  simp [multMetadataPt, check_ok]

omit [One F] in
/-- The fused product with a plaintext rescales its polynomials and its metadata together. -/
theorem multReadyPtWith_flagged (manual : cc.rescaleTechnique = .fixedManual) {pt : Plaintext cc}
    (one : self.NoiseLevel = 1) (other : pt.NoiseLevel = 1) (rescale : Bool) :
    ∃ result, multReadyPtWith self pt rescale = .ok result ∧
      Flagged self.getLevel rescale result := by
  have low : self.NoiseLevel < 2 := by omega
  have lowPt : pt.NoiseLevel < 2 := by omega
  have two : self.NoiseLevel + pt.NoiseLevel = 2 := by omega
  have product := fun rescale => multMetadataPt_self (self.multPolysPtWith pt rescale) pt
  cases rescale with
  | false =>
      simp only [multReadyPtWith, check_ok low, check_ok lowPt, product,
        ok_bind]
      exact ⟨_, rfl, (Int.sub_zero _).symm, two⟩
  | true =>
      have single : self.NoiseLevel + pt.NoiseLevel - 1 = 1 := by omega
      simp only [multReadyPtWith, manual, check_ok low, check_ok lowPt,
        product, ok_bind]
      exact ⟨_, rfl, rfl, single⟩

omit [Mul F] [One F] in
theorem addMultPt_flagged (manual : cc.rescaleTechnique = .fixedManual) {c : Ciphertext cc}
    {pt : Plaintext cc} (two : self.NoiseLevel = 2) (one : c.NoiseLevel = 1)
    (other : pt.NoiseLevel = 1) (low : self.getLevel ≤ c.getLevel)
    (lowPt : self.getLevel ≤ pt.c0.level) (rescale : Bool) :
    ∃ result, self.addMultPt c pt rescale = .ok result ∧
      Flagged self.getLevel rescale result := by
  have first : self.c0.level ≤ pt.c0.level ∧ self.c0.level ≤ c.c0.level := ⟨lowPt, low⟩
  have second : self.c1.level ≤ pt.c0.level ∧ self.c1.level ≤ c.c1.level := by
    rw [self.sameLevel, c.sameLevel]
    exact first
  simp only [addMultPt, check_ok two, check_ok one,
    check_ok other, check_ok first, check_ok second, ok_bind]
  refine ⟨_, rfl, ?_⟩
  apply Flagged.of_product manual
  · rfl
  · exact two

omit [One F] in
theorem multScalarComplex_flagged (manual : cc.rescaleTechnique = .fixedManual)
    (one : self.NoiseLevel = 1) (re im : F) (rescale : Bool) :
    Flagged self.getLevel rescale (self.multScalarComplex re im rescale) := by
  have two : self.NoiseLevel + 1 = 2 := by omega
  have kept : ¬(cc.rescaleTechnique ≠ .fixedManual ∧ self.NoiseLevel = 2) :=
    fun both => both.1 manual
  simp only [multScalarComplex, kept, if_false]
  apply Flagged.of_product manual
  · rfl
  · exact two

omit [One F] in
/-- The real product tests the flag against another technique, so it never rescales. -/
theorem multScalarNoPrecheck_manual (manual : cc.rescaleTechnique = .fixedManual) (c : F)
    (rescale : Bool) :
    self.multScalarNoPrecheck c rescale = self.multScalarNoPrecheck c false := by
  simp [multScalarNoPrecheck, manual]

omit [One F] in
theorem multScalarNoPrecheck_flagged (one : self.NoiseLevel = 1) (c : F) :
    Flagged self.getLevel false (self.multScalarNoPrecheck c false) := by
  have two : self.NoiseLevel + 1 = 2 := by omega
  refine ⟨?_, ?_⟩
  · exact (Int.sub_zero _).symm
  · simpa [multScalarNoPrecheck, withNoise] using two

omit [One F] in
theorem multScalar_manual (manual : cc.rescaleTechnique = .fixedManual) (one : self.NoiseLevel = 1)
    (c : F) (rescale : Bool) :
    self.multScalar c rescale = .ok (self.multScalarNoPrecheck c false) := by
  have notAutomatic : ¬cc.rescaleTechnique.isAutomatic := by
    rw [manual]
    decide
  simp only [multScalar, notAutomatic, Bool.false_eq_true, false_and, if_false, check_ok one, ok_bind]
  rw [multScalarNoPrecheck_manual manual]
  rfl

namespace FlaggedOperation

/-- Every operation other than the product with a real constant follows the flag. -/
theorem flagged_of_not_real (manual : cc.rescaleTechnique = .fixedManual)
    {operation : FlaggedOperation cc} (operands : operation.Operands keys self)
    (notReal : operation.isReal = false) (rescale : Bool) :
    FlagContract keys self operation rescale := by
  have notAutomatic : ¬cc.rescaleTechnique.isAutomatic := by
    rw [manual]
    decide
  cases operation with
  | mult b =>
      obtain ⟨one, other, -, -, sameKey, found⟩ := operands
      obtain ⟨result, done, flagged⟩ :=
        multAligned_flagged manual one other sameKey found rescale
      refine ⟨result, fun calls enough => ?_, flagged.level, flagged.degree⟩
      obtain ⟨calls, rfl⟩ := Nat.exists_eq_add_of_le' enough
      have product := mult_of_manual keys notAutomatic (check_ok sameKey) calls rescale
      rw [adoptKey_same sameKey] at product
      exact product.trans done
  | square =>
      obtain ⟨one, -, found⟩ := operands
      obtain ⟨result, done, flagged⟩ := multAligned_flagged manual one one rfl found rescale
      rw [min_self] at flagged
      refine ⟨result, fun calls enough => ?_, flagged.level, flagged.degree⟩
      obtain ⟨calls, rfl⟩ := Nat.exists_eq_add_of_le' enough
      have single : cc.rescaleTechnique.isAutomatic → self.NoiseLevel ≠ 2 :=
        fun automatic => absurd automatic notAutomatic
      have product := multSelf_eq_multAligned keys single calls rescale
      simp only [perform, squareSelf, notAutomatic, Bool.false_eq_true, false_and, if_false, check_ok one,
        ok_bind, product]
      exact done
  | multPt b =>
      obtain ⟨one, other, -, -⟩ := operands
      obtain ⟨result, done, flagged⟩ := multReadyPtWith_flagged manual one other rescale
      refine ⟨result, fun calls enough => ?_, flagged.level, flagged.degree⟩
      obtain ⟨calls, rfl⟩ := Nat.exists_eq_add_of_le' enough
      simp only [perform, multPtWith, notAutomatic, Bool.false_eq_true, if_false]
      exact done
  | multScalar c => simp [isReal] at notReal
  | multScalarNoPrecheck c => simp [isReal] at notReal
  | multScalarComplex re im =>
      have flagged := multScalarComplex_flagged manual operands.1 re im rescale
      exact ⟨_, fun _ _ => rfl, flagged.level, flagged.degree⟩
  | addMultPt c b =>
      obtain ⟨two, one, other, -, low, lowPt⟩ := operands
      obtain ⟨result, done, flagged⟩ := addMultPt_flagged manual two one other low lowPt rescale
      exact ⟨result, fun _ _ => done, flagged.level, flagged.degree⟩

/-- A product with a real constant keeps its level and gains a degree whatever the flag says. -/
theorem real_keeps_level (manual : cc.rescaleTechnique = .fixedManual)
    {operation : FlaggedOperation cc} (operands : operation.Operands keys self)
    (isReal : operation.isReal = true) (rescale : Bool) :
    ∃ result, (∀ calls, operation.perform keys calls self rescale = .ok result) ∧
      operation.level self = self.getLevel ∧ Flagged self.getLevel false result := by
  cases operation with
  | multScalar c =>
      have done := multScalar_manual manual operands.1 c rescale
      exact ⟨_, fun _ => done, rfl, multScalarNoPrecheck_flagged operands.1 c⟩
  | multScalarNoPrecheck c =>
      have done := @multScalarNoPrecheck_manual _ _ _ _ self manual c rescale
      exact ⟨_, fun _ => congrArg Except.ok done, rfl, multScalarNoPrecheck_flagged operands.1 c⟩
  | mult _ | square | multPt _ | multScalarComplex _ _ | addMultPt _ _ =>
      simp [FlaggedOperation.isReal] at isReal

/-- Under the manual technique only the products with a real constant ignore their flag. -/
theorem flag_contract_iff (manual : cc.rescaleTechnique = .fixedManual)
    (operation : FlaggedOperation cc) (operands : operation.Operands keys self) (rescale : Bool) :
    FlagContract keys self operation rescale ↔ ¬(operation.isReal = true ∧ rescale = true) := by
  constructor
  · rintro ⟨result, done, level, -⟩ ⟨isReal, set⟩
    obtain ⟨other, returned, kept, flagged⟩ := real_keeps_level manual operands isReal rescale
    have same : result = other := Except.ok.inj ((done 1 le_rfl).symm.trans (returned 1))
    have unchanged := flagged.level
    rw [← same] at unchanged
    have lowered : result.getLevel = self.getLevel - 1 := by simpa [set, kept] using level
    simp only [Bool.false_eq_true, if_false] at unchanged
    omega
  · intro harmless
    by_cases isReal : operation.isReal = true
    · have unset : rescale = false := by
        cases rescale with
        | false => rfl
        | true => exact absurd ⟨isReal, rfl⟩ harmless
      obtain ⟨result, done, kept, flagged⟩ := real_keeps_level manual operands isReal rescale
      subst unset
      exact ⟨result, fun calls _ => done calls, kept ▸ flagged.level, flagged.degree⟩
    · exact flagged_of_not_real manual operands (by simpa using isReal) rescale

theorem flag_contract_iff_square :
    FlagContract (fun _ => some (plainKey (smallContext .fixedManual true)))
        (zeroAt (smallContext .fixedManual true) 3 1) .square true ↔
      ¬((.square : FlaggedOperation (smallContext .fixedManual true)).isReal = true ∧ true = true) :=
  flag_contract_iff rfl .square ⟨rfl, by decide, by simp⟩ true

/-- A product with a constant under the manual technique is left at its level with degree two. -/
theorem real_flag_ignored :
    ¬FlagContract (fun _ => none) (zeroAt (smallContext .fixedManual true) 3 1)
        (.multScalar 1) true := by
  rintro ⟨result, done, level, -⟩
  have returned : result = (zeroAt (smallContext .fixedManual true) 3 1).multScalarNoPrecheck 1
      false := Except.ok.inj ((done 1 le_rfl).symm.trans (multScalar_manual rfl rfl 1 true))
  rw [returned] at level
  exact absurd level (by decide)

end FlaggedOperation

end Manual

end Ciphertext
end Fideslib.CKKS
