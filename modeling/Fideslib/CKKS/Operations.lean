/-
This file models the operations that align, add, subtract and multiply ciphertexts.
-/

import Fideslib.CKKS.RnsPoly

namespace Fideslib.CKKS

variable {F : Type} [Mul F] [Div F] [One F]

/-- The two polynomials of a ciphertext always have one level. -/
@[ext]
structure Ciphertext (cc : ContextData F) where
  c0 : RNSPoly cc
  c1 : RNSPoly cc
  sameLevel : c1.level = c0.level
  NoiseLevel : Int
  NoiseFactor : F
  slots : Int
  keyID : String

/-- An evaluation key turns the quadratic part into the two polynomials that the product gains. -/
structure EvalKey (cc : ContextData F) where
  keySwitchCore : RNSPoly cc → RNSPoly cc × RNSPoly cc
  level_fst : ∀ poly, (keySwitchCore poly).1.level = poly.level
  level_snd : ∀ poly, (keySwitchCore poly).2.level = poly.level

namespace Ciphertext

variable {cc : ContextData F}

def getLevel (self : Ciphertext cc) : Int := self.c0.level

def addMetadata (self a b : Ciphertext cc) : Except Failure (Ciphertext cc) := do
  cc.check (self.getLevel = a.getLevel) "this->getLevel() == a.getLevel()"
  if cc.rescaleTechnique.isFlexible then
    cc.check (a.getLevel = b.getLevel) "a.getLevel() == b.getLevel()"
  cc.check (a.keyID = b.keyID) "a.keyID == b.keyID"
  cc.check (a.NoiseLevel = b.NoiseLevel) "a.NoiseLevel == b.NoiseLevel"
  return { self with
    slots := max a.slots b.slots
    keyID := a.keyID
    NoiseLevel := a.NoiseLevel
    NoiseFactor := a.NoiseFactor }

def multMetadata (self a b : Ciphertext cc) : Except Failure (Ciphertext cc) := do
  cc.check (self.getLevel = a.getLevel) "this->getLevel() == a.getLevel()"
  if cc.rescaleTechnique.isFlexible then
    cc.check (a.getLevel = b.getLevel) "a.getLevel() == b.getLevel()"
  cc.check (a.keyID = b.keyID) "a.keyID == b.keyID"
  return { self with
    slots := max a.slots b.slots
    keyID := a.keyID
    NoiseLevel := a.NoiseLevel + b.NoiseLevel
    NoiseFactor := a.NoiseFactor * b.NoiseFactor }

def withNoiseFactor (self : Ciphertext cc) (NoiseFactor : F) : Ciphertext cc :=
  { self with NoiseFactor }

def withNoise (self : Ciphertext cc) (NoiseLevel : Int) (NoiseFactor : F) : Ciphertext cc :=
  { self with NoiseLevel, NoiseFactor }

def rescaleInternal (self : Ciphertext cc) : Ciphertext cc :=
  let rescaled : Ciphertext cc :=
    { self with
      c0 := self.c0.rescaleDouble
      c1 := self.c1.rescaleDouble
      sameLevel := congrArg (RNSPoly.rescaledLevel cc) self.sameLevel }
  rescaled.withNoise (self.NoiseLevel - 1) (self.NoiseFactor /
    if self.getLevel = cc.L + 1 then cc.specialPrimeFactor else cc.ModReduceFactor self.getLevel)

/-- A ciphertext of degree two is rescaled. -/
def reduceDegree (self : Ciphertext cc) : Ciphertext cc :=
  if self.NoiseLevel = 2 then self.rescaleInternal else self

def rescale (self : Ciphertext cc) : Ciphertext cc :=
  if cc.rescaleTechnique ≠ .fixedManual then self else self.rescaleInternal

/-- Both polynomials are multiplied by one residue for each prime. -/
def scalePolys (self : Ciphertext cc) (vector : (id : Nat) → ZMod (cc.prime id)) : Ciphertext cc :=
  { self with
    c0 := self.c0.multScalar vector
    c1 := self.c1.multScalar vector
    sameLevel := by simp [RNSPoly.multScalar, RNSPoly.mapLimbs, self.sameLevel] }

def multScalarNoPrecheck (self : Ciphertext cc) (c : F) (rescale : Bool) : Ciphertext cc :=
  let scaled := (self.scalePolys (cc.ElemForEvalMult self.getLevel c)).withNoise
    (self.NoiseLevel + 1)
    (self.NoiseFactor *
      if self.getLevel = cc.L + 1 then cc.specialPrimeFactor
      else cc.ScalingFactorReal self.getLevel)
  if rescale ∧ cc.rescaleTechnique = .fixedAuto then scaled.rescaleInternal else scaled

def multScalar (self : Ciphertext cc) (c : F) (rescale : Bool) :
    Except Failure (Ciphertext cc) := do
  let ready :=
    if cc.rescaleTechnique.isAutomatic ∧ self.NoiseLevel = 2 then self.rescaleInternal else self
  cc.check (ready.NoiseLevel = 1) "this->NoiseLevel == 1"
  return ready.multScalarNoPrecheck c (rescale ∧ cc.rescaleTechnique = .fixedManual)

def raiseDegreeToLevel (self : Ciphertext cc) (targetLevel : Int) : Ciphertext cc :=
  (self.scalePolys fun id => (cc.prime targetLevel.toNat : ZMod (cc.prime id))).withNoise
    (self.NoiseLevel + 1) (self.NoiseFactor * cc.ScalingFactorReal self.getLevel)

/-- This is the level drop that skips the adjustment. -/
def dropPolys (self : Ciphertext cc) (level : Int) : Ciphertext cc :=
  { self with
    c0 := self.c0.dropToLevel level
    c1 := self.c1.dropToLevel level
    sameLevel := by simp [RNSPoly.dropToLevel, self.sameLevel] }

/-- The flag tells whether the ciphertext now has the requested degree and level. -/
def adjustScaleAndLevel (self : Ciphertext cc) (scaleDegree level : Int) (scaling_factor : F) :
    Except Failure (Ciphertext cc × Bool) :=
  let c1lvl := self.getLevel
  let c1depth := self.NoiseLevel
  if (cc.rescaleTechnique = .fixedManual ∨ cc.rescaleTechnique = .fixedAuto) ∧
      c1depth = scaleDegree then
    if c1lvl > level then .ok (self.dropPolys level, true)
    else if c1lvl < level then .ok (self, false)
    else .ok (self, true)
  else if cc.rescaleTechnique = .fixedAuto then
    if c1lvl = level then
      if c1depth < scaleDegree then .ok (self.raiseDegreeToLevel level, true)
      else .ok (self, false)
    else if c1lvl > level then
      let moved :=
        if self.NoiseLevel = 2 then self.rescaleInternal else self.raiseDegreeToLevel level
      .ok (if moved.getLevel > level then moved.dropPolys level else moved, true)
    else .ok (self, false)
  else if c1lvl > level then
    if c1depth = 2 then
      if scaleDegree = 2 then
        let scf := cc.ScalingFactorReal c1lvl
        let q1 := cc.ModReduceFactor c1lvl
        let scaled := self.multScalarNoPrecheck (scaling_factor / self.NoiseFactor * q1 / scf) false
        let reduced := (scaled.withNoiseFactor (cc.ScalingFactorRealBig (scaled.getLevel - 1) *
          cc.ModReduceFactor scaled.getLevel)).rescaleInternal
        let lowered := if reduced.getLevel > level then reduced.dropPolys level else reduced
        .ok (lowered.withNoiseFactor scaling_factor, true)
      else if c1lvl - 1 = level then .ok (self.rescaleInternal, true)
      else
        let scf2 := cc.ScalingFactorRealBig (level + 1)
        let scf := cc.ScalingFactorReal c1lvl
        let q1 := cc.ModReduceFactor c1lvl
        let scaled := self.multScalarNoPrecheck (scf2 / self.NoiseFactor * q1 / scf) false
        let reduced := (scaled.withNoiseFactor (cc.ScalingFactorRealBig (scaled.getLevel - 1) *
          cc.ModReduceFactor c1lvl)).rescaleInternal
        let lowered :=
          if reduced.getLevel - 1 > level then reduced.dropPolys (level + 1) else reduced
        let final :=
          (lowered.withNoiseFactor (cc.ScalingFactorRealBig lowered.getLevel)).rescaleInternal
        .ok (final.withNoiseFactor scaling_factor, true)
    else if scaleDegree = 2 then
      let scf := cc.ScalingFactorReal c1lvl
      let scaled := self.multScalarNoPrecheck (scaling_factor / self.NoiseFactor / scf) false
      .ok ((scaled.dropPolys level).withNoiseFactor scaling_factor, true)
    else
      let scf2 := cc.ScalingFactorRealBig (level + 1)
      let scf := cc.ScalingFactorReal c1lvl
      let scaled := self.multScalarNoPrecheck (scf2 / self.NoiseFactor / scf) false
      let lowered := if c1lvl - 1 > level then scaled.dropPolys (level + 1) else scaled
      let final := (lowered.withNoiseFactor
        (lowered.NoiseFactor * (scf2 / self.NoiseFactor / scf))).rescaleInternal
      .ok (final.withNoiseFactor scaling_factor, true)
  else if c1lvl < level then .ok (self, false)
  else if c1depth < scaleDegree then do
    let scaled ← self.multScalar 1 false
    return (scaled, true)
  else if scaleDegree < c1depth then .ok (self, false)
  else .ok (self, true)

def dropToLevel (self : Ciphertext cc) (level : Int) (skip_adjust : Bool) :
    Except Failure (Ciphertext cc) :=
  if self.getLevel > level then
    if skip_adjust = false ∧ cc.rescaleTechnique.isFlexible then do
      cc.check (self.NoiseLevel = 1 ∨ self.NoiseLevel = 2) "NoiseLevel == 1 || NoiseLevel == 2"
      let (adjusted, ok) ← self.adjustScaleAndLevel self.NoiseLevel level
        (if self.NoiseLevel = 1 then cc.ScalingFactorReal level else cc.ScalingFactorRealBig level)
      cc.check (ok = true) "ok"
      return adjusted
    else .ok (self.dropPolys level)
  else .ok self

def adjustForAddOrSub (self b : Ciphertext cc) : Except Failure (Ciphertext cc × Bool) :=
  if cc.rescaleTechnique = .fixedManual then
    if self.getLevel - self.NoiseLevel > b.getLevel - b.NoiseLevel then
      if b.NoiseLevel = 1 ∧ self.NoiseLevel = 2 then .ok (self.rescaleInternal, true)
      else if b.NoiseLevel = 2 ∧ self.NoiseLevel = 1 then do
        let scaled ← self.multScalar 1 false
        return (scaled, true)
      else .ok (self, true)
    else if b.NoiseLevel = 1 ∧ self.NoiseLevel = 2 then .ok (self.rescaleInternal, true)
    else if self.NoiseLevel = 1 ∧ b.NoiseLevel = 2 then .ok (self, false)
    else .ok (self, true)
  else if cc.rescaleTechnique.isAutomatic then
    self.adjustScaleAndLevel b.NoiseLevel b.getLevel b.NoiseFactor
  else do
    cc.check False "\"This never happens\" == nullptr"
    return (self, false)

/-- Addition and subtraction first adjust one operand to the other, then call themselves again. -/
def withAdjusted (op : String)
    (finish : Ciphertext cc → Ciphertext cc → Except Failure (Ciphertext cc)) :
    Nat → Ciphertext cc → Ciphertext cc → Except Failure (Ciphertext cc)
  | 0, _, _ => .error .exhausted
  | calls + 1, self, b => do
      cc.check (self.keyID = b.keyID) "keyID == b.keyID"
      if cc.rescaleTechnique.isAutomatic then
        let (adjusted, ok) ← self.adjustForAddOrSub b
        if ok then finish adjusted b
        else
          let (b_, adjustedToo) ← b.adjustForAddOrSub adjusted
          if adjustedToo then withAdjusted op finish calls adjusted b_
          else .error (.adjust op adjusted.getLevel adjusted.NoiseLevel b.getLevel b.NoiseLevel
            "ciphertext")
      else finish self b

def addPolys (self b : Ciphertext cc) : Except Failure (Ciphertext cc) := do
  cc.check (self.c0.level ≤ b.c0.level) "level <= p.level"
  cc.check (self.c1.level ≤ b.c1.level) "level <= p.level"
  return { self with
    c0 := self.c0.add b.c0
    c1 := self.c1.add b.c1
    sameLevel := self.sameLevel }

def subPolys (self b : Ciphertext cc) : Except Failure (Ciphertext cc) := do
  cc.check (self.c0.level ≤ b.c0.level) "level <= p.level"
  cc.check (self.c1.level ≤ b.c1.level) "level <= p.level"
  return { self with
    c0 := self.c0.sub b.c0
    c1 := self.c1.sub b.c1
    sameLevel := self.sameLevel }

/-- The addition asserts that the deeper operand stands first, then drops it all the same. -/
def dropForAdd (self b : Ciphertext cc) : Except Failure (Ciphertext cc) :=
  if cc.rescaleTechnique.isFlexible then do
    cc.check (self.getLevel = b.getLevel) "this->getLevel() == b.getLevel()"
    return self
  else if self.getLevel > b.getLevel then do
    cc.check (self.getLevel ≤ b.getLevel) "this->getLevel() <= b.getLevel()"
    self.dropToLevel b.getLevel false
  else .ok self

def dropForSub (self b : Ciphertext cc) : Except Failure (Ciphertext cc) :=
  if cc.rescaleTechnique.isFlexible then do
    cc.check (self.getLevel = b.getLevel) "this->getLevel() == b.getLevel()"
    return self
  else if self.getLevel > b.getLevel then .ok (self.dropPolys b.getLevel)
  else .ok self

def addAligned (self b : Ciphertext cc) : Except Failure (Ciphertext cc) := do
  let lowered ← self.dropForAdd b
  let sum ← lowered.addPolys b
  sum.addMetadata sum b

def subAligned (self b : Ciphertext cc) : Except Failure (Ciphertext cc) := do
  let lowered ← self.dropForSub b
  let difference ← lowered.subPolys b
  difference.addMetadata difference b

def add (calls : Nat) (self b : Ciphertext cc) : Except Failure (Ciphertext cc) :=
  withAdjusted "add" addAligned calls self b

def sub (calls : Nat) (self b : Ciphertext cc) : Except Failure (Ciphertext cc) :=
  withAdjusted "sub" subAligned calls self b

/-- The mutable forms adjust the second operand in place and keep both results. -/
def withBothAdjusted (op operandKind : String)
    (drop finish : Ciphertext cc → Ciphertext cc → Except Failure (Ciphertext cc))
    (self b : Ciphertext cc) : Except Failure (Ciphertext cc × Ciphertext cc) := do
  cc.check (self.keyID = b.keyID) "keyID == b.keyID"
  if cc.rescaleTechnique.isAutomatic then
    let (adjusted, ok) ← self.adjustForAddOrSub b
    if ok then
      let lowered ← drop adjusted b
      return (← finish lowered b, b)
    else
      let (b_, adjustedToo) ← b.adjustForAddOrSub adjusted
      if adjustedToo then return (← finish adjusted b_, b_)
      else .error (.adjust op adjusted.getLevel adjusted.NoiseLevel b_.getLevel b_.NoiseLevel
        operandKind)
  else
    let lowered ← drop self b
    return (← finish lowered b, b)

def addMutable : Nat → Ciphertext cc → Ciphertext cc →
    Except Failure (Ciphertext cc × Ciphertext cc)
  | 0, _, _ => .error .exhausted
  | calls + 1, self, b =>
      withBothAdjusted "addMutable" "ciphertext" dropForAdd (add calls) self b

def subMutable : Nat → Ciphertext cc → Ciphertext cc →
    Except Failure (Ciphertext cc × Ciphertext cc)
  | 0, _, _ => .error .exhausted
  | calls + 1, self, b => withBothAdjusted "addPt" "plaintext" dropForSub (sub calls) self b

def negate (self : Ciphertext cc) : Ciphertext cc :=
  self.scalePolys fun id => ((cc.prime id - 1 : Nat) : ZMod (cc.prime id))

/-- A receiver without a key tag takes the tag of the operand. -/
def adoptKey (self b : Ciphertext cc) : Ciphertext cc :=
  if self.keyID = "" then { self with keyID := b.keyID } else self

/-- The product aligns its operands and reduces both when the first one has degree two. A second
operand is returned only when it changed. -/
def alignForMult (self b : Ciphertext cc) :
    Except Failure (Ciphertext cc × Option (Ciphertext cc)) := do
  let (adjusted, ok) ← self.adjustForAddOrSub b
  let owned ←
    if ok then pure none
    else do
      let (b_owned, adjustedToo) ← b.adjustForAddOrSub adjusted
      if adjustedToo then pure (some b_owned)
      else .error (.adjust "mult" adjusted.getLevel adjusted.NoiseLevel b.getLevel b.NoiseLevel
        "ciphertext")
  if adjusted.NoiseLevel = 2 then
    return (adjusted.rescaleInternal, some (owned.getD b).rescaleInternal)
  else return (adjusted, owned)

/-- Both halves of the product gain the switched quadratic part. -/
def relinearize (self : Ciphertext cc) (kskEval : EvalKey cc) (b : Ciphertext cc) :
    Ciphertext cc :=
  let parts := RNSPoly.binomialMult self.c0 self.c1 b.c0 b.c1
  let switched := kskEval.keySwitchCore parts.2.2
  { self with
    c0 := parts.1.add switched.1
    c1 := parts.2.1.add switched.2
    sameLevel := self.sameLevel }

/-- The product of two aligned operands starts here. -/
def multAligned (keys : String → Option (EvalKey cc)) (self b : Ciphertext cc) (rescale : Bool) :
    Except Failure (Ciphertext cc) := do
  let lowered :=
    if (cc.rescaleTechnique = .fixedManual ∨ cc.rescaleTechnique = .fixedAuto) ∧
        self.getLevel > b.getLevel then self.dropPolys b.getLevel
    else self
  cc.check (lowered.NoiseLevel = 1) "NoiseLevel == 1"
  cc.check (lowered.NoiseLevel = b.NoiseLevel) "NoiseLevel == b.NoiseLevel"
  match keys lowered.keyID with
  | none => .error (.noEvaluationKey lowered.keyID)
  | some kskEval =>
      let parts := RNSPoly.binomialMult lowered.c0 lowered.c1 b.c0 b.c1
      let switched := kskEval.keySwitchCore parts.2.2
      cc.check (parts.1.level ≤ switched.1.level) "level <= p.level"
      cc.check (parts.2.1.level ≤ switched.2.level) "level <= p.level"
      let multiplied := lowered.relinearize kskEval b
      let product ← multiplied.multMetadata multiplied b
      return if rescale ∧ cc.rescaleTechnique = .fixedManual then product.rescaleInternal
        else product

def mult (keys : String → Option (EvalKey cc)) :
    Nat → Ciphertext cc → Ciphertext cc → Bool → Except Failure (Ciphertext cc)
  | 0, _, _, _ => .error .exhausted
  | calls + 1, self, b, rescale => do
      cc.check (self.keyID = b.keyID) "keyID == b.keyID"
      let self := self.adoptKey b
      if cc.rescaleTechnique.isAutomatic then
        let (aligned, owned) ← self.alignForMult b
        match owned with
        | some b_owned => mult keys calls aligned b_owned rescale
        | none => multAligned keys aligned b rescale
      else multAligned keys self b rescale

def multMutable (keys : String → Option (EvalKey cc)) :
    Nat → Ciphertext cc → Ciphertext cc → Bool → Except Failure (Ciphertext cc × Ciphertext cc)
  | 0, _, _, _ => .error .exhausted
  | calls + 1, self, b, rescale => do
      cc.check (self.keyID = b.keyID) "keyID == b.keyID"
      let self := self.adoptKey b
      let (self, b) ←
        if cc.rescaleTechnique.isAutomatic then do
          let (aligned, owned) ← self.alignForMult b
          pure (aligned, owned.getD b)
        else if cc.rescaleTechnique = .fixedManual ∧ self.getLevel > b.getLevel then
          pure (self.dropPolys b.getLevel, b)
        else pure (self, b)
      cc.check (self.NoiseLevel = 1) "NoiseLevel == 1"
      cc.check (self.NoiseLevel = b.NoiseLevel) "NoiseLevel == b.NoiseLevel"
      return (← mult keys calls self b rescale, b)

/-- The square passes itself as the second operand. -/
def square (keys : String → Option (EvalKey cc)) (calls : Nat) (self : Ciphertext cc)
    (rescale : Bool) : Except Failure (Ciphertext cc) := do
  let ready :=
    if cc.rescaleTechnique.isAutomatic ∧ self.NoiseLevel = 2 then self.rescaleInternal else self
  cc.check (ready.NoiseLevel = 1) "this->NoiseLevel == 1"
  mult keys calls ready ready rescale

end Ciphertext
end Fideslib.CKKS
