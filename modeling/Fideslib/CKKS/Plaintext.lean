/-
This file models the plaintexts on the device and their use as the second operand.
-/

import Fideslib.CKKS.Operations

namespace Fideslib.CKKS

variable {F : Type} [Mul F] [Div F] [One F]

@[ext]
structure Plaintext (cc : ContextData F) where
  c0 : RNSPoly cc
  NoiseLevel : Int
  NoiseFactor : F
  slots : Int

namespace Plaintext

variable {cc : ContextData F}

def rescale (self : Plaintext cc) : Except Failure (Plaintext cc) := do
  cc.check (self.NoiseLevel ≥ 2) "this->NoiseLevel >= 2"
  return { self with
    c0 := self.c0.rescale
    NoiseLevel := self.NoiseLevel - 1
    NoiseFactor := self.NoiseFactor / cc.ModReduceFactor self.c0.level }

def multScalar (self : Plaintext cc) (c : F) : Plaintext cc :=
  { self with
    c0 := self.c0.multScalar (cc.ElemForEvalMult self.c0.level c)
    NoiseLevel := self.NoiseLevel + 1
    NoiseFactor := self.NoiseFactor * cc.ScalingFactorReal self.c0.level }

def raiseDegreeToLevel (self : Plaintext cc) (targetLevel : Int) : Plaintext cc :=
  { self with
    c0 := self.c0.multScalar fun id => (cc.prime targetLevel.toNat : ZMod (cc.prime id))
    NoiseLevel := self.NoiseLevel + 1
    NoiseFactor := self.NoiseFactor * cc.ScalingFactorReal self.c0.level }

/-- This is the level drop that skips the adjustment. -/
def dropPoly (self : Plaintext cc) (level : Int) : Plaintext cc :=
  { self with c0 := self.c0.dropToLevel level }

/-- The flag tells whether the plaintext now has the requested degree and level. -/
def adjustScaleAndLevel (self : Plaintext cc) (scaleDegree level : Int) (scaling_factor : F) :
    Except Failure (Plaintext cc × Bool) :=
  let c1lvl := self.c0.level
  let c1depth := self.NoiseLevel
  if (cc.rescaleTechnique = .fixedManual ∨ cc.rescaleTechnique = .fixedAuto) ∧
      c1depth = scaleDegree then
    if c1lvl > level then .ok (self.dropPoly level, true)
    else if c1lvl < level then .ok (self, false)
    else .ok (self, true)
  else if cc.rescaleTechnique = .fixedAuto then
    if c1lvl = level then
      if c1depth < scaleDegree then .ok (self.raiseDegreeToLevel level, true)
      else .ok (self, false)
    else if c1lvl > level then do
      let moved ← if self.NoiseLevel = 2 then self.rescale else pure (self.raiseDegreeToLevel level)
      return (if moved.c0.level > level then moved.dropPoly level else moved, true)
    else .ok (self, false)
  else if c1lvl > level then
    if c1depth = 2 then
      if scaleDegree = 2 then do
        let scf := cc.ScalingFactorReal c1lvl
        let q1 := cc.ModReduceFactor c1lvl
        let reduced ← (self.multScalar (scaling_factor / self.NoiseFactor * q1 / scf)).rescale
        let lowered := if reduced.c0.level > level then reduced.dropPoly level else reduced
        return ({ lowered with NoiseFactor := scaling_factor }, true)
      else if c1lvl - 1 = level then do
        return (← self.rescale, true)
      else do
        let scf2 := cc.ScalingFactorRealBig (level + 1)
        let scf := cc.ScalingFactorReal c1lvl
        let q1 := cc.ModReduceFactor c1lvl
        let reduced ← (self.multScalar (scf2 / self.NoiseFactor * q1 / scf)).rescale
        let lowered :=
          if reduced.c0.level - 1 > level then reduced.dropPoly (level + 1) else reduced
        let final ← lowered.rescale
        return ({ final with NoiseFactor := scaling_factor }, true)
    else if scaleDegree = 2 then
      let scf := cc.ScalingFactorReal c1lvl
      let scaled := self.multScalar (scaling_factor / self.NoiseFactor / scf)
      .ok ({ scaled.dropPoly level with NoiseFactor := scaling_factor }, true)
    else do
      let scf2 := cc.ScalingFactorRealBig (level + 1)
      let scf := cc.ScalingFactorReal c1lvl
      let scaled := self.multScalar (scf2 / self.NoiseFactor / scf)
      let lowered := if c1lvl - 1 > level then scaled.dropPoly (level + 1) else scaled
      let final ← lowered.rescale
      return ({ final with NoiseFactor := scaling_factor }, true)
  else if c1lvl < level then .ok (self, false)
  else if c1depth < scaleDegree then .ok (self.multScalar 1, true)
  else if scaleDegree < c1depth then .ok (self, false)
  else .ok (self, true)

/-- The caller passes the plaintext itself or a copy of it. -/
def adjustPlaintextToCiphertext (self : Plaintext cc) (c : Ciphertext cc) :
    Except Failure (Plaintext cc × Bool) :=
  if cc.rescaleTechnique.isAutomatic then
    self.adjustScaleAndLevel c.NoiseLevel c.getLevel c.NoiseFactor
  else .ok (self, false)

end Plaintext

namespace Ciphertext

variable {cc : ContextData F}

def addMetadataPt (self a : Ciphertext cc) (b : Plaintext cc) : Except Failure (Ciphertext cc) := do
  cc.check (self.getLevel = a.getLevel) "this->getLevel() == a.getLevel()"
  if cc.rescaleTechnique.isFlexible then
    cc.check (a.getLevel = b.c0.level) "a.getLevel() == b.c0.getLevel()"
  cc.check (a.NoiseLevel = b.NoiseLevel) "a.NoiseLevel == b.NoiseLevel"
  return { self with
    slots := max a.slots b.slots
    keyID := a.keyID
    NoiseLevel := a.NoiseLevel
    NoiseFactor := a.NoiseFactor }

def multMetadataPt (self a : Ciphertext cc) (b : Plaintext cc) :
    Except Failure (Ciphertext cc) := do
  cc.check (self.getLevel = a.getLevel) "this->getLevel() == a.getLevel()"
  return { self with
    slots := max a.slots b.slots
    keyID := a.keyID
    NoiseLevel := a.NoiseLevel + b.NoiseLevel
    NoiseFactor := a.NoiseFactor * b.NoiseFactor }

def adjustCiphertextToPlaintext (self : Ciphertext cc) (b : Plaintext cc) :
    Except Failure (Ciphertext cc × Bool) :=
  if cc.rescaleTechnique.isAutomatic then
    self.adjustScaleAndLevel b.NoiseLevel b.c0.level b.NoiseFactor
  else do
    cc.check False "\"This never happens\" == nullptr"
    return (self, false)

/-- A ciphertext one level above a plaintext of degree one is rescaled first. -/
def stepDownTo (self : Ciphertext cc) (b : Plaintext cc) : Ciphertext cc :=
  if b.NoiseLevel = 1 ∧ self.NoiseLevel = 2 ∧ b.c0.level = self.getLevel - 1 then
    self.rescaleInternal
  else self

/-- The plaintext only meets the first polynomial. -/
def combinePt (combine : RNSPoly cc → RNSPoly cc → RNSPoly cc)
    (keepsLevel : ∀ poly p, (combine poly p).level = poly.level) (self : Ciphertext cc)
    (b : Plaintext cc) : Except Failure (Ciphertext cc) := do
  cc.check (self.NoiseLevel = b.NoiseLevel) "NoiseLevel == b.NoiseLevel"
  cc.check (self.c0.level ≤ b.c0.level) "level <= p.level"
  let combined : Ciphertext cc :=
    { self with
      c0 := combine self.c0 b.c0
      sameLevel := self.sameLevel.trans (keepsLevel _ _).symm }
  combined.addMetadataPt combined b

/-- Both plaintext operations adjust one side and then call themselves again. -/
def withAdjustedPt (op : String)
    (finish : Ciphertext cc → Plaintext cc → Except Failure (Ciphertext cc)) :
    Nat → Ciphertext cc → Plaintext cc → Except Failure (Ciphertext cc)
  | 0, _, _ => .error .exhausted
  | calls + 1, self, b =>
      if cc.rescaleTechnique.isAutomatic then do
        let (adjusted, ok) ← (self.stepDownTo b).adjustCiphertextToPlaintext b
        if ok then finish adjusted b
        else
          let (b_, adjustedToo) ← b.adjustPlaintextToCiphertext adjusted
          if adjustedToo then withAdjustedPt op finish calls adjusted b_
          else .error (.adjust op adjusted.getLevel adjusted.NoiseLevel b.c0.level b.NoiseLevel
            "plaintext")
      else finish self b

def addPt (calls : Nat) (self : Ciphertext cc) (b : Plaintext cc) :
    Except Failure (Ciphertext cc) :=
  withAdjustedPt "addPt" (combinePt RNSPoly.add fun _ _ => rfl) calls self b

def subPt (calls : Nat) (self : Ciphertext cc) (b : Plaintext cc) :
    Except Failure (Ciphertext cc) :=
  withAdjustedPt "subPt" (combinePt RNSPoly.sub fun _ _ => rfl) calls self b

/-- The mutable forms adjust the plaintext in place and keep both results. -/
def withBothAdjustedPt (op : String)
    (finish : Ciphertext cc → Plaintext cc → Except Failure (Ciphertext cc))
    (self : Ciphertext cc) (b : Plaintext cc) : Except Failure (Ciphertext cc × Plaintext cc) :=
  if cc.rescaleTechnique.isAutomatic then do
    let (adjusted, ok) ← (self.stepDownTo b).adjustCiphertextToPlaintext b
    if ok then
      cc.check (adjusted.NoiseLevel = b.NoiseLevel) "NoiseLevel == b.NoiseLevel"
      return (← finish adjusted b, b)
    else
      let (b_, adjustedToo) ← b.adjustPlaintextToCiphertext adjusted
      if adjustedToo then return (← finish adjusted b_, b_)
      else .error (.adjust op adjusted.getLevel adjusted.NoiseLevel b_.c0.level b_.NoiseLevel
        "plaintext")
  else do
    cc.check (self.NoiseLevel = b.NoiseLevel) "NoiseLevel == b.NoiseLevel"
    return (← finish self b, b)

def addPtMutable : Nat → Ciphertext cc → Plaintext cc →
    Except Failure (Ciphertext cc × Plaintext cc)
  | 0, _, _ => .error .exhausted
  | calls + 1, self, b => withBothAdjustedPt "addPtMutable" (addPt calls) self b

def subPtMutable : Nat → Ciphertext cc → Plaintext cc →
    Except Failure (Ciphertext cc × Plaintext cc)
  | 0, _, _ => .error .exhausted
  | calls + 1, self, b => withBothAdjustedPt "subPtMutable" (subPt calls) self b

def multPolysPt (self : Ciphertext cc) (b : Plaintext cc) : Ciphertext cc :=
  { self with
    c0 := self.c0.mapLimbs fun id limb => limb * b.c0.limb id
    c1 := self.c1.mapLimbs fun id limb => limb * b.c0.limb id
    sameLevel := self.sameLevel }

def multReadyPt (self : Ciphertext cc) (b : Plaintext cc) : Except Failure (Ciphertext cc) := do
  cc.check (self.NoiseLevel < 2) "NoiseLevel < 2"
  cc.check (b.NoiseLevel < 2) "b.NoiseLevel < 2"
  (self.multPolysPt b).multMetadataPt (self.multPolysPt b) b

/-- The product with a plaintext adjusts the ciphertext before it reduces its degree. -/
def multPt : Nat → Ciphertext cc → Plaintext cc → Except Failure (Ciphertext cc)
  | 0, _, _ => .error .exhausted
  | calls + 1, self, b =>
      if cc.rescaleTechnique.isAutomatic then do
        let (adjusted, ok) ← self.adjustCiphertextToPlaintext b
        if ok = false ∨ b.NoiseLevel ≠ 1 then
          let (b_, adjustedToo) ← b.adjustPlaintextToCiphertext adjusted
          if adjustedToo then
            let b_ ← if b_.NoiseLevel = 2 then b_.rescale else pure b_
            multPt calls adjusted.reduceDegree b_
          else .error (.adjust "multPt" adjusted.getLevel adjusted.NoiseLevel b.c0.level
            b.NoiseLevel "plaintext")
        else multReadyPt adjusted.reduceDegree b
      else multReadyPt self b

/-- The mutable product reduces the degree of the ciphertext before it adjusts it. -/
def multPtMutable : Nat → Ciphertext cc → Plaintext cc →
    Except Failure (Ciphertext cc × Plaintext cc)
  | 0, _, _ => .error .exhausted
  | calls + 1, self, b =>
      if cc.rescaleTechnique.isAutomatic then do
        let (adjusted, ok) ← self.reduceDegree.adjustCiphertextToPlaintext b
        if ok = false ∨ b.NoiseLevel ≠ 1 then
          let (b_, adjustedToo) ← b.adjustPlaintextToCiphertext adjusted
          if adjustedToo then
            let b_ ← if b_.NoiseLevel = 2 then b_.rescale else pure b_
            return (← multPt calls adjusted.reduceDegree b_, b_)
          else .error (.adjust "multPt" adjusted.getLevel adjusted.NoiseLevel b_.c0.level
            b_.NoiseLevel "plaintext")
        else
          cc.check (adjusted.reduceDegree.NoiseLevel < 2) "NoiseLevel < 2"
          cc.check (b.NoiseLevel < 2) "b.NoiseLevel < 2"
          return (← multPt calls adjusted.reduceDegree b, b)
      else do
        cc.check (self.NoiseLevel < 2) "NoiseLevel < 2"
        cc.check (b.NoiseLevel < 2) "b.NoiseLevel < 2"
        return (← multPt calls self b, b)

end Ciphertext
end Fideslib.CKKS
