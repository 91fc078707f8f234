/-
This file translates the methods of a ciphertext that may be offloaded.
-/

import Fideslib.Offload.Object

namespace Fideslib.Offload

open CKKS

variable {F : Type} [Mul F] [Div F] [One F] {cc : ContextData F}

/-- A method may answer a flag, a raw ciphertext or its adjusted operand. -/
inductive Answer (cc : ContextData F) where
  | nothing
  | flag (ok : Bool)
  | raw (rawct : Option (RawCipherText cc))
  | ciphertext (b : Ciphertext cc)
  | plaintext (b : Plaintext cc)

abbrev Outcome (cc : ContextData F) := Except Failure (Object cc × Answer cc)

/-- A method of this form restores residency at its entry. -/
def entered (body : Ciphertext cc → Except Failure (Ciphertext cc × Answer cc))
    (self : Object cc) : Outcome cc := do
  let (result, answer) ← body self.current
  return (ofCiphertext result, answer)

namespace Object

/-- A call inside a method restores residency in the same way. -/
def enter (body : Ciphertext cc → Ciphertext cc) (self : Object cc) : Object cc :=
  ofCiphertext (body self.current)

def rescaleInternal (self : Object cc) : Object cc := self.enter Ciphertext.rescaleInternal

def multScalarNoPrecheck (self : Object cc) (c : F) (rescale : Bool) : Object cc :=
  self.enter fun ciphertext => ciphertext.multScalarNoPrecheck c rescale

def multScalar (self : Object cc) (c : F) (rescale : Bool) : Except Failure (Object cc) := do
  return ofCiphertext (← self.current.multScalar c rescale)

/-- This is the level drop that skips the adjustment. -/
def dropPolys (self : Object cc) (level : Int) : Object cc :=
  self.enter fun ciphertext =>
    if ciphertext.getLevel > level then ciphertext.dropPolys level else ciphertext

def dropToLevel (self : Object cc) (level : Int) (skip_adjust : Bool) :
    Except Failure (Object cc) := do
  return ofCiphertext (← self.current.dropToLevel level skip_adjust)

def withNoiseFactor (self : Object cc) (NoiseFactor : F) : Object cc := { self with NoiseFactor }

/-- Both polynomials are multiplied where they are, also when they were freed. -/
def scalePolys (self : Object cc) (vector : (id : Nat) → ZMod (cc.prime id)) : Object cc :=
  { self with
    c0 := self.c0.multScalar vector
    c1 := self.c1.multScalar vector
    sameLevel := self.sameLevel }

/-- The negation does not restore residency. -/
def negate (self : Object cc) : Object cc :=
  self.scalePolys fun id => ((cc.prime id - 1 : Nat) : ZMod (cc.prime id))

/-- The raise does not restore residency either. -/
def raiseDegreeToLevel (self : Object cc) (targetLevel : Int) : Object cc :=
  { self.scalePolys fun id => (cc.prime targetLevel.toNat : ZMod (cc.prime id)) with
    NoiseLevel := self.NoiseLevel + 1
    NoiseFactor := self.NoiseFactor * cc.ScalingFactorReal self.getLevel }

/-- The subtraction drops the polynomials where they are. -/
def dropLimbs (self : Object cc) (level : Int) : Object cc :=
  { self with
    c0 := self.c0.dropToLevel level
    c1 := self.c1.dropToLevel level
    sameLevel := by
      intro resident
      simp only [RNSPoly.dropToLevel, self.sameLevel resident] }

/-- The exact switch multiplies a lifted polynomial by both parts of its key. The parts only have a
bottom limb, so what they make of the limbs above it is arbitrary. -/
structure SparseKey (cc : ContextData F) where
  keyID : String
  a : ((id : Nat) → Fin cc.N → ZMod (cc.prime id)) → (id : Nat) → Fin cc.N → ZMod (cc.prime id)
  b : ((id : Nat) → Fin cc.N → ZMod (cc.prime id)) → (id : Nat) → Fin cc.N → ZMod (cc.prime id)

/-- The switch does not restore residency, and a freed polynomial fails the check of its extension
or has no limb that the switch could change. -/
def keySwitchSparse (ksk : SparseKey cc) (self : Object cc) : Except Failure (Object cc) := do
  cc.check (ksk.keyID = self.keyID) "ksk.keyID == this->keyID"
  cc.check (self.getLevel = 0) "getLevel() == 0"
  cc.check (self.c1.level = 0) "level == 0"
  return { self with
    c0 := self.c0.mapLimbs fun id limb => limb + ksk.b self.c1.limb id
    c1 := self.c1.mapLimbs fun id _ => ksk.a self.c1.limb id
    sameLevel := self.sameLevel }

end Object

/-- The public methods that restore residency at their entry. The bodies of those that have no
name here are arbitrary. -/
structure Entered (cc : ContextData F) where
  body : Ciphertext cc → Except Failure (Ciphertext cc × Answer cc)

namespace Entered

def quiet (body : Ciphertext cc → Except Failure (Ciphertext cc)) : Entered cc where
  body self := do return (← body self, .nothing)

def add (calls : Nat) (b : Ciphertext cc) : Entered cc := quiet fun self => self.add calls b

def sub (calls : Nat) (b : Ciphertext cc) : Entered cc := quiet fun self => self.sub calls b

def addPt (calls : Nat) (b : Plaintext cc) : Entered cc := quiet fun self => self.addPt calls b

def subPt (calls : Nat) (b : Plaintext cc) : Entered cc := quiet fun self => self.subPt calls b

def multPt (calls : Nat) (b : Plaintext cc) : Entered cc := quiet fun self => self.multPt calls b

def mult (keys : String → Option (EvalKey cc)) (calls : Nat) (b : Ciphertext cc)
    (rescale : Bool) : Entered cc :=
  quiet fun self => self.mult keys calls b rescale

def square (keys : String → Option (EvalKey cc)) (calls : Nat) (rescale : Bool) : Entered cc :=
  quiet fun self => self.square keys calls rescale

def multScalarNoPrecheck (c : F) (rescale : Bool) : Entered cc :=
  quiet fun self => .ok (self.multScalarNoPrecheck c rescale)

def multScalar (c : F) (rescale : Bool) : Entered cc := quiet fun self => self.multScalar c rescale

def rescaleInternal : Entered cc := quiet fun self => .ok self.rescaleInternal

def dropToLevel (level : Int) (skip_adjust : Bool) : Entered cc :=
  quiet fun self => self.dropToLevel level skip_adjust

/-- The vector has the residues of the scalar at the level and the degree of the ciphertext. -/
def addScalar (elem : Int → Int → (id : Nat) → ZMod (cc.prime id)) : Entered cc :=
  quiet fun self => .ok
    { self with
      c0 := self.c0.mapLimbs fun id limb k => limb k + elem self.getLevel self.NoiseLevel id
      sameLevel := self.sameLevel }

/-- A rotation key switches the second polynomial, and the automorphism permutes the words. -/
structure RotationKey (cc : ContextData F) extends EvalKey cc where
  automorph : (id : Nat) → (Fin cc.N → ZMod (cc.prime id)) → Fin cc.N → ZMod (cc.prime id)

/-- The first polynomial joins the switched one before both are permuted. -/
def rotated (ksk : RotationKey cc) (c : Ciphertext cc) : Ciphertext cc :=
  let switched := ksk.keySwitchCore c.c1
  { c with
    c0 := (c.c0.add switched.1).mapLimbs ksk.automorph
    c1 := (c.c1.mapLimbs fun id _ => switched.2.limb id).mapLimbs ksk.automorph
    sameLevel := c.sameLevel }

/-- The context finds the key by the index, the key tag and the slots. -/
def rotate (GetRotationKey : Int → String → Int → Except Failure (RotationKey cc))
    (normalyzeIndex : Int → Int → Int) (index : Int) : Entered cc :=
  quiet fun self => do
    let index := normalyzeIndex index self.slots
    cc.check (index ≠ 0) "index != 0"
    return rotated (← GetRotationKey index self.keyID self.slots) self

/-- The receiver only gives the slots that find the key of the conjugation. -/
def conjugate (GetRotationKey : Int → String → Int → Except Failure (RotationKey cc))
    (c : Ciphertext cc) : Entered cc :=
  quiet fun self => do
    return rotated (← GetRotationKey (2 * cc.N - 1) c.keyID self.slots) c

def keySwitch (ksk : EvalKey cc) (keyID : String) : Entered cc :=
  quiet fun self => do
    cc.check (keyID = self.keyID) "ksk.keyID == this->keyID"
    let switched := ksk.keySwitchCore self.c1
    return { self with
      c0 := self.c0.add switched.1
      c1 := self.c1.mapLimbs fun id _ => switched.2.limb id
      sameLevel := self.sameLevel }

def copy (ciphertext : Ciphertext cc) : Entered cc := quiet fun _ => .ok ciphertext

def store : Entered cc where
  body self := .ok (self, .raw (ofCiphertext self).store)

def load (rawct : RawCipherText cc) : Entered cc :=
  quiet fun self => .ok ((ofCiphertext self).load rawct).current

end Entered
end Fideslib.Offload
