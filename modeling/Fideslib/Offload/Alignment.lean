/-
This file translates the alignment of a ciphertext that may be offloaded and its mutable forms.
-/

import Fideslib.Offload.Methods

namespace Fideslib.Offload

open CKKS

variable {F : Type} [Mul F] [Div F] [One F] {cc : ContextData F}

namespace Object

/-- The branches read the metadata of the object, and each call restores residency by itself. -/
def adjustScaleAndLevel (self : Object cc) (scaleDegree level : Int) (scaling_factor : F) :
    Except Failure (Object cc × Bool) :=
  let c1lvl := self.getLevel
  let c1depth := self.NoiseLevel
  if (cc.rescaleTechnique = .fixedManual ∨ cc.rescaleTechnique = .fixedAuto) ∧
      c1depth = scaleDegree then
    if c1lvl > level then .ok (self.dropPolys level, true)
    else if c1lvl < level then .ok (self, false)
    else .ok (self, true)
  else if cc.rescaleTechnique = .fixedAuto then
    if c1lvl = level then
      if c1depth < scaleDegree then .ok (self.raiseDegreeToLevel level, true)
      else .ok (self, false)
    else if c1lvl > level then
      let moved :=
        if self.NoiseLevel = 2 then self.rescaleInternal else self.raiseDegreeToLevel level
      .ok (if moved.getLevel > level then moved.dropPolys level else moved, true)
    else .ok (self, false)
  else if c1lvl > level then
    if c1depth = 2 then
      if scaleDegree = 2 then
        let scf := cc.ScalingFactorReal c1lvl
        let q1 := cc.ModReduceFactor c1lvl
        let scaled := self.multScalarNoPrecheck (scaling_factor / self.NoiseFactor * q1 / scf) false
        let reduced := (scaled.withNoiseFactor (cc.ScalingFactorRealBig (scaled.getLevel - 1) *
          cc.ModReduceFactor scaled.getLevel)).rescaleInternal
        let lowered := if reduced.getLevel > level then reduced.dropPolys level else reduced
        .ok (lowered.withNoiseFactor scaling_factor, true)
      else if c1lvl - 1 = level then .ok (self.rescaleInternal, true)
      else
        let scf2 := cc.ScalingFactorRealBig (level + 1)
        let scf := cc.ScalingFactorReal c1lvl
        let q1 := cc.ModReduceFactor c1lvl
        let scaled := self.multScalarNoPrecheck (scf2 / self.NoiseFactor * q1 / scf) false
        let reduced := (scaled.withNoiseFactor (cc.ScalingFactorRealBig (scaled.getLevel - 1) *
          cc.ModReduceFactor c1lvl)).rescaleInternal
        let lowered :=
          if reduced.getLevel - 1 > level then reduced.dropPolys (level + 1) else reduced
        let final :=
          (lowered.withNoiseFactor (cc.ScalingFactorRealBig lowered.getLevel)).rescaleInternal
        .ok (final.withNoiseFactor scaling_factor, true)
    else if scaleDegree = 2 then
      let scf := cc.ScalingFactorReal c1lvl
      let scaled := self.multScalarNoPrecheck (scaling_factor / self.NoiseFactor / scf) false
      .ok ((scaled.dropPolys level).withNoiseFactor scaling_factor, true)
    else
      let scf2 := cc.ScalingFactorRealBig (level + 1)
      let scf := cc.ScalingFactorReal c1lvl
      let scaled := self.multScalarNoPrecheck (scf2 / self.NoiseFactor / scf) false
      let lowered := if c1lvl - 1 > level then scaled.dropPolys (level + 1) else scaled
      let final := (lowered.withNoiseFactor
        (lowered.NoiseFactor * (scf2 / self.NoiseFactor / scf))).rescaleInternal
      .ok (final.withNoiseFactor scaling_factor, true)
  else if c1lvl < level then .ok (self, false)
  else if c1depth < scaleDegree then do
    let scaled ← self.multScalar 1 false
    return (scaled, true)
  else if scaleDegree < c1depth then .ok (self, false)
  else .ok (self, true)

def adjustForAddOrSub (self : Object cc) (b : Ciphertext cc) : Except Failure (Object cc × Bool) :=
  if cc.rescaleTechnique = .fixedManual then
    if self.getLevel - self.NoiseLevel > b.getLevel - b.NoiseLevel then
      if b.NoiseLevel = 1 ∧ self.NoiseLevel = 2 then .ok (self.rescaleInternal, true)
      else if b.NoiseLevel = 2 ∧ self.NoiseLevel = 1 then do
        let scaled ← self.multScalar 1 false
        return (scaled, true)
      else .ok (self, true)
    else if b.NoiseLevel = 1 ∧ self.NoiseLevel = 2 then .ok (self.rescaleInternal, true)
    else if self.NoiseLevel = 1 ∧ b.NoiseLevel = 2 then .ok (self, false)
    else .ok (self, true)
  else if cc.rescaleTechnique.isAutomatic then
    self.adjustScaleAndLevel b.NoiseLevel b.getLevel b.NoiseFactor
  else do
    cc.check False "\"This never happens\" == nullptr"
    return (self, false)

/-- An object of degree two is rescaled. -/
def reduceDegree (self : Object cc) : Object cc :=
  if self.NoiseLevel = 2 then self.rescaleInternal else self

def adjustForMult (self : Object cc) (b : Ciphertext cc) : Except Failure (Object cc × Bool) := do
  let (adjusted, ok) ← self.adjustForAddOrSub b
  return (adjusted.reduceDegree, if ok then b.NoiseLevel ≠ 2 else false)

def adjustCiphertextToPlaintext (self : Object cc) (b : Plaintext cc) :
    Except Failure (Object cc × Bool) :=
  if cc.rescaleTechnique.isAutomatic then
    self.adjustScaleAndLevel b.NoiseLevel b.c0.level b.NoiseFactor
  else do
    cc.check False "\"This never happens\" == nullptr"
    return (self, false)

/-- An operand that is adjusted to this object reads its level and its metadata. -/
def shown (self : Object cc) : Ciphertext cc :=
  { self.current with
    c0 := { self.current.c0 with level := self.getLevel }
    c1 := { self.current.c1 with level := self.getLevel }
    sameLevel := rfl
    NoiseLevel := self.NoiseLevel
    NoiseFactor := self.NoiseFactor
    slots := self.slots
    keyID := self.keyID }

/-- The mutable forms do not restore residency before they adjust the object. -/
def withBothAdjusted (op operandKind : String)
    (drop : Object cc → Ciphertext cc → Except Failure (Object cc))
    (finish : Ciphertext cc → Ciphertext cc → Except Failure (Ciphertext cc))
    (self : Object cc) (b : Ciphertext cc) : Outcome cc := do
  cc.check (self.keyID = b.keyID) "keyID == b.keyID"
  if cc.rescaleTechnique.isAutomatic then
    let (adjusted, ok) ← self.adjustForAddOrSub b
    if ok then
      let lowered ← drop adjusted b
      return (ofCiphertext (← finish lowered.current b), .ciphertext b)
    else
      let (b_, adjustedToo) ← b.adjustForAddOrSub adjusted.shown
      if adjustedToo then return (ofCiphertext (← finish adjusted.current b_), .ciphertext b_)
      else .error (.adjust op adjusted.getLevel adjusted.NoiseLevel b_.getLevel b_.NoiseLevel
        operandKind)
  else
    let lowered ← drop self b
    return (ofCiphertext (← finish lowered.current b), .ciphertext b)

def dropForAdd (self : Object cc) (b : Ciphertext cc) : Except Failure (Object cc) :=
  if cc.rescaleTechnique.isFlexible then do
    cc.check (self.getLevel = b.getLevel) "this->getLevel() == b.getLevel()"
    return self
  else if self.getLevel > b.getLevel then do
    cc.check (self.getLevel ≤ b.getLevel) "this->getLevel() <= b.getLevel()"
    self.dropToLevel b.getLevel false
  else .ok self

def dropForSub (self : Object cc) (b : Ciphertext cc) : Except Failure (Object cc) :=
  if cc.rescaleTechnique.isFlexible then do
    cc.check (self.getLevel = b.getLevel) "this->getLevel() == b.getLevel()"
    return self
  else if self.getLevel > b.getLevel then .ok (self.dropLimbs b.getLevel)
  else .ok self

def addMutable (calls : Nat) (self : Object cc) (b : Ciphertext cc) : Outcome cc :=
  withBothAdjusted "addMutable" "ciphertext" dropForAdd (Ciphertext.add calls) self b

def subMutable (calls : Nat) (self : Object cc) (b : Ciphertext cc) : Outcome cc :=
  withBothAdjusted "addPt" "plaintext" dropForSub (Ciphertext.sub calls) self b

/-- An object without a key tag takes the tag of the operand. -/
def adoptKey (self : Object cc) (b : Ciphertext cc) : Object cc :=
  if self.keyID = "" then { self with keyID := b.keyID } else self

/-- Both operands are reduced when the first one has degree two. -/
def alignForMult (self : Object cc) (b : Ciphertext cc) :
    Except Failure (Object cc × Ciphertext cc) := do
  let (adjusted, ok) ← self.adjustForAddOrSub b
  let b ←
    if ok then pure b
    else do
      let (b_, adjustedToo) ← b.adjustForAddOrSub adjusted.shown
      if adjustedToo then pure b_
      else .error (.adjust "mult" adjusted.getLevel adjusted.NoiseLevel b_.getLevel b_.NoiseLevel
        "ciphertext")
  return if adjusted.NoiseLevel = 2 then (adjusted.rescaleInternal, b.rescaleInternal)
    else (adjusted, b)

def multMutable (keys : String → Option (EvalKey cc)) (calls : Nat) (self : Object cc)
    (b : Ciphertext cc) (rescale : Bool) : Outcome cc := do
  cc.check (self.keyID = b.keyID) "keyID == b.keyID"
  let self := self.adoptKey b
  let (self, b) ←
    if cc.rescaleTechnique.isAutomatic then self.alignForMult b
    else if cc.rescaleTechnique = .fixedManual ∧ self.getLevel > b.getLevel then
      pure (self.dropPolys b.getLevel, b)
    else pure (self, b)
  cc.check (self.NoiseLevel = 1) "NoiseLevel == 1"
  cc.check (self.NoiseLevel = b.NoiseLevel) "NoiseLevel == b.NoiseLevel"
  return (ofCiphertext (← self.current.mult keys calls b rescale), .ciphertext b)

/-- An object one level above a plaintext of degree one is rescaled first. -/
def stepDownTo (self : Object cc) (b : Plaintext cc) : Object cc :=
  if b.NoiseLevel = 1 ∧ self.NoiseLevel = 2 ∧ b.c0.level = self.getLevel - 1 then
    self.rescaleInternal
  else self

def withBothAdjustedPt (op : String)
    (finish : Ciphertext cc → Plaintext cc → Except Failure (Ciphertext cc))
    (self : Object cc) (b : Plaintext cc) : Outcome cc :=
  if cc.rescaleTechnique.isAutomatic then do
    let (adjusted, ok) ← (self.stepDownTo b).adjustCiphertextToPlaintext b
    if ok then
      cc.check (adjusted.NoiseLevel = b.NoiseLevel) "NoiseLevel == b.NoiseLevel"
      return (ofCiphertext (← finish adjusted.current b), .plaintext b)
    else
      let (b_, adjustedToo) ← b.adjustPlaintextToCiphertext adjusted.shown
      if adjustedToo then return (ofCiphertext (← finish adjusted.current b_), .plaintext b_)
      else .error (.adjust op adjusted.getLevel adjusted.NoiseLevel b_.c0.level b_.NoiseLevel
        "plaintext")
  else do
    cc.check (self.NoiseLevel = b.NoiseLevel) "NoiseLevel == b.NoiseLevel"
    return (ofCiphertext (← finish self.current b), .plaintext b)

def addPtMutable (calls : Nat) (self : Object cc) (b : Plaintext cc) : Outcome cc :=
  withBothAdjustedPt "addPtMutable" (Ciphertext.addPt calls) self b

def subPtMutable (calls : Nat) (self : Object cc) (b : Plaintext cc) : Outcome cc :=
  withBothAdjustedPt "subPtMutable" (Ciphertext.subPt calls) self b

/-- The mutable product reduces the degree of the object before it adjusts it. -/
def multPtMutable (calls : Nat) (self : Object cc) (b : Plaintext cc) : Outcome cc :=
  if cc.rescaleTechnique.isAutomatic then do
    let (adjusted, ok) ← self.reduceDegree.adjustCiphertextToPlaintext b
    if ok = false ∨ b.NoiseLevel ≠ 1 then
      let (b_, adjustedToo) ← b.adjustPlaintextToCiphertext adjusted.shown
      if adjustedToo then
        let reduced := adjusted.reduceDegree
        let b_ ← if b_.NoiseLevel = 2 then b_.rescale else pure b_
        return (ofCiphertext (← reduced.current.multPt calls b_), .plaintext b_)
      else .error (.adjust "multPt" adjusted.getLevel adjusted.NoiseLevel b_.c0.level
        b_.NoiseLevel "plaintext")
    else
      let reduced := adjusted.reduceDegree
      cc.check (reduced.NoiseLevel < 2) "NoiseLevel < 2"
      cc.check (b.NoiseLevel < 2) "b.NoiseLevel < 2"
      return (ofCiphertext (← reduced.current.multPt calls b), .plaintext b)
  else do
    cc.check (self.NoiseLevel < 2) "NoiseLevel < 2"
    cc.check (b.NoiseLevel < 2) "b.NoiseLevel < 2"
    return (ofCiphertext (← self.current.multPt calls b), .plaintext b)

/-- The product with a complex number reduces the degree and then lowers the object to the level
of the vectors, which hold the number at that level. -/
def multScalarTo (whole : Ciphertext cc → Except Failure (Ciphertext cc))
    (BuildConstant2 : Int → (id : Nat) → Fin cc.N → ZMod (cc.prime id)) (self : Object cc)
    (target_level : Int) : Outcome cc := do
  let self :=
    if cc.rescaleTechnique ≠ .fixedManual ∧ self.NoiseLevel = 2 then self.rescaleInternal else self
  let level := self.getLevel
  if target_level = -1 ∨ target_level = level then
    return (ofCiphertext (← whole self.current), .nothing)
  else
    cc.check (target_level < level) "target_level < level"
    let lowered := (self.dropPolys target_level).current
    return (ofCiphertext
      { lowered with
        c0 := lowered.c0.mapLimbs fun id limb => limb * BuildConstant2 level id
        c1 := lowered.c1.mapLimbs fun id limb => limb * BuildConstant2 level id
        sameLevel := lowered.sameLevel
        NoiseLevel := lowered.NoiseLevel + 1
        NoiseFactor := cc.ScalingFactorRealBig target_level }, .nothing)

end Object

/-- The public methods that touch the polynomials of their receiver. -/
inductive Operation (cc : ContextData F) where
  | entered (method : Entered cc)
  | rescale
  | negate
  | raiseDegreeToLevel (targetLevel : Int)
  | keySwitchSparse (ksk : Object.SparseKey cc)
  | adjustScaleAndLevel (scaleDegree level : Int) (scaling_factor : F)
  | adjustForAddOrSub (b : Ciphertext cc)
  | adjustForMult (b : Ciphertext cc)
  | adjustCiphertextToPlaintext (b : Plaintext cc)
  | addMutable (calls : Nat) (b : Ciphertext cc)
  | subMutable (calls : Nat) (b : Ciphertext cc)
  | multMutable (keys : String → Option (EvalKey cc)) (calls : Nat) (b : Ciphertext cc)
      (rescale : Bool)
  | addPtMutable (calls : Nat) (b : Plaintext cc)
  | subPtMutable (calls : Nat) (b : Plaintext cc)
  | multPtMutable (calls : Nat) (b : Plaintext cc)
  | multScalarTo (whole : Ciphertext cc → Except Failure (Ciphertext cc))
      (BuildConstant2 : Int → (id : Nat) → Fin cc.N → ZMod (cc.prime id)) (target_level : Int)
  | onCopy (ciphertext : Ciphertext cc) (operation : Operation cc)

namespace Operation

def flagged (outcome : Except Failure (Object cc × Bool)) : Outcome cc := do
  let (adjusted, ok) ← outcome
  return (adjusted, .flag ok)

/-- An operation with the operand forms copies its first operand and goes on with the copy. -/
def run : Operation cc → Object cc → Outcome cc
  | entered method, self => Offload.entered method.body self
  | rescale, self =>
      if cc.rescaleTechnique ≠ .fixedManual then .ok (self, .nothing)
      else .ok (self.rescaleInternal, .nothing)
  | negate, self => .ok (self.negate, .nothing)
  | raiseDegreeToLevel targetLevel, self => .ok (self.raiseDegreeToLevel targetLevel, .nothing)
  | keySwitchSparse ksk, self => do return (← self.keySwitchSparse ksk, .nothing)
  | adjustScaleAndLevel scaleDegree level scaling_factor, self =>
      flagged (self.adjustScaleAndLevel scaleDegree level scaling_factor)
  | adjustForAddOrSub b, self => flagged (self.adjustForAddOrSub b)
  | adjustForMult b, self => flagged (self.adjustForMult b)
  | adjustCiphertextToPlaintext b, self => flagged (self.adjustCiphertextToPlaintext b)
  | addMutable calls b, self => self.addMutable calls b
  | subMutable calls b, self => self.subMutable calls b
  | multMutable keys calls b rescaled, self => self.multMutable keys calls b rescaled
  | addPtMutable calls b, self => self.addPtMutable calls b
  | subPtMutable calls b, self => self.subPtMutable calls b
  | multPtMutable calls b, self => self.multPtMutable calls b
  | multScalarTo whole BuildConstant2 target_level, self =>
      self.multScalarTo whole BuildConstant2 target_level
  | onCopy ciphertext operation, self => do
      let (copied, _) ← Offload.entered (Entered.copy ciphertext).body self
      operation.run copied

end Operation
end Fideslib.Offload
