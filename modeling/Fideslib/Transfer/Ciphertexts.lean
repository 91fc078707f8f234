/-
This file translates the host, raw and device forms of a ciphertext and the upload.
-/

import Mathlib.Data.BitVec
import Mathlib.Data.List.Nodup
import Mathlib.Tactic

namespace Fideslib.Transfer

/-- A scheme has a chain of regular primes and the special primes of the key switch. -/
structure Scheme where
  chain : List Nat
  special : List Nat
  distinct : (chain ++ special).Nodup
  regularPrime : chain ≠ []
  specialPrime : special ≠ []
  -- A number of towers is an int.
  bounded : chain.length + special.length < 2 ^ 31

/-- The regular primes come first, and an extended ciphertext has all special primes. -/
def Scheme.basis (scheme : Scheme) (regular : Nat) (extended : Bool) : List Nat :=
  scheme.chain.take regular ++ if extended then scheme.special else []

/-- A polynomial of OpenFHE has one element for every modulus. -/
@[ext]
structure DcrtPoly (Residues : Type) where
  moduli : List Nat
  elements : List Residues
  complete : elements.length = moduli.length

/-- A host ciphertext counts the primes that it consumed. -/
@[ext]
structure HostCiphertext (Residues Factor : Type) where
  c0 : DcrtPoly Residues
  c1 : DcrtPoly Residues
  sameBasis : c1.moduli = c0.moduli
  level : BitVec 64
  scalingFactor : Factor
  noiseScaleDeg : Nat
  keyTag : String
  slots : Nat

/-- A raw ciphertext carries plain rows of residues. -/
structure RawCipherText (Residues Factor : Type) where
  numRes : Nat
  sub0 : List Residues
  sub1 : List Residues
  noise : Factor
  noiseLevel : Nat
  keyid : String
  slots : Nat
  rows0 : sub0.length = numRes
  rows1 : sub1.length = numRes

/-- A device polynomial has a level, its limbs and, in the extended basis, special limbs. -/
structure RnsPoly (Residues : Type) where
  level : Int
  limb : List Residues
  specialLimb : List Residues
  modUp : Bool

/-- A device ciphertext counts the primes that remain. -/
structure Ciphertext (Residues Factor : Type) where
  c0 : RnsPoly Residues
  c1 : RnsPoly Residues
  noiseFactor : Factor
  noiseLevel : Nat
  keyId : String
  slots : Nat

variable {Residues Factor : Type} (scheme : Scheme)

def HostCiphertext.towers (ct : HostCiphertext Residues Factor) : Nat := ct.c0.elements.length

/-- The moduli of the rows are only used by the load. -/
def getRawCipherText (ct : HostCiphertext Residues Factor) :
    RawCipherText Residues Factor × List Nat :=
  ({ numRes := ct.towers
     sub0 := ct.c0.elements
     sub1 := ct.c1.elements
     noise := ct.scalingFactor
     noiseLevel := ct.noiseScaleDeg
     keyid := ct.keyTag
     slots := ct.slots
     rows0 := rfl
     rows1 := by
      rw [ct.c1.complete, ct.sameBasis]
      exact ct.c0.complete.symm },
    ct.c0.moduli)

namespace RnsPoly

/-- The load counts the rows whose modulus is the regular prime of their place. -/
def limbsize (moduli : List Nat) (count : Nat) : Nat :=
  ((List.range count).filter fun place =>
    place < scheme.chain.length ∧ moduli[place]? = scheme.chain[place]?).length

/-- The other rows become special limbs, and one of them alone raises the level. -/
def load (data : List Residues) (moduli : List Nat) (poly : RnsPoly Residues) : RnsPoly Residues :=
  let regular := limbsize scheme moduli data.length
  { poly with
    level := if data.length - regular = 1 then regular else regular - 1
    limb := data.take regular ++ poly.limb.drop regular
    specialLimb := data.drop regular ++ poly.specialLimb.drop (data.length - regular) }

def isModUp (poly : RnsPoly Residues) : Bool := poly.modUp

/-- The special limbs follow the regular ones, and a limb that does not exist cannot be read. The
polynomial has a regular limb or is not extended: otherwise its level is cast to a large index. -/
def store (poly : RnsPoly Residues) : Option (List Residues) :=
  let specialCount := if poly.modUp then scheme.special.length else 0
  let regular := (poly.level + 1).toNat
  if regular ≤ poly.limb.length ∧ specialCount ≤ poly.specialLimb.length then
    some (poly.limb.take regular ++ poly.specialLimb.take specialCount)
  else none

/-- A polynomial of the pool begins without a level and in the regular basis. -/
def fresh (pool : RnsPoly Residues) : RnsPoly Residues := { pool with level := -1, modUp := false }

def dropToLevel (level : Int) (poly : RnsPoly Residues) : RnsPoly Residues :=
  if level < poly.level then { poly with level := level } else poly

end RnsPoly

namespace Ciphertext

/-- The new device ciphertext takes two polynomials of the pool. -/
def load (raw : RawCipherText Residues Factor × List Nat) (pool0 pool1 : RnsPoly Residues) :
    Ciphertext Residues Factor where
  c0 := pool0.fresh.load scheme raw.1.sub0 raw.2
  c1 := pool1.fresh.load scheme raw.1.sub1 raw.2
  noiseFactor := raw.1.noise
  noiseLevel := raw.1.noiseLevel
  keyId := raw.1.keyid
  slots := raw.1.slots

def store (device : Ciphertext Residues Factor) : Option (RawCipherText Residues Factor) := do
  let numRes := (device.c0.level + 1).toNat +
    if device.c0.isModUp then scheme.special.length else 0
  let sub0 ← device.c0.store scheme
  let sub1 ← device.c1.store scheme
  if rows : sub0.length = numRes ∧ sub1.length = numRes then
    some ⟨numRes, sub0, sub1, device.noiseFactor, device.noiseLevel, device.keyId, device.slots,
      rows.1, rows.2⟩
  else none

def getLevel (device : Ciphertext Residues Factor) : Int := device.c0.level

/-- This drop keeps the values and only forgets the last limbs. -/
def dropToLevel (level : Int) (device : Ciphertext Residues Factor) :
    Ciphertext Residues Factor :=
  if level < device.c0.level then
    { device with c0 := device.c0.dropToLevel level, c1 := device.c1.dropToLevel level }
  else device

end Ciphertext

/-- The rows replace the elements over given moduli, and a tower beyond them cannot be written. -/
def writeRows (moduli : List Nat) (result : HostCiphertext Residues Factor)
    (raw : RawCipherText Residues Factor) : Option (HostCiphertext Residues Factor) :=
  if enough : raw.numRes ≤ moduli.length then
    some
      { c0 := ⟨moduli.take raw.numRes, raw.sub0, by simp [raw.rows0, enough]⟩
        c1 := ⟨moduli.take raw.numRes, raw.sub1, by simp [raw.rows1, enough]⟩
        sameBasis := rfl
        level := result.level + BitVec.ofNat 64 result.towers - BitVec.ofNat 64 raw.numRes
        scalingFactor := raw.noise
        noiseScaleDeg := raw.noiseLevel
        keyTag := raw.keyid
        slots := raw.slots }
  else none

/-- A host ciphertext with too few towers is rebuilt on the chain of the scheme. -/
def getOpenFheCipherText (result : HostCiphertext Residues Factor)
    (raw : RawCipherText Residues Factor) : Option (HostCiphertext Residues Factor) :=
  writeRows (if result.towers < raw.numRes then scheme.chain else result.c0.moduli) result raw

/-- The last parameters are popped, and the elements become zero. -/
def HostCiphertext.grow [Zero Residues] (params : List Nat) (count : Nat)
    (cpu : HostCiphertext Residues Factor) : HostCiphertext Residues Factor :=
  let kept := params.take count
  let zero : DcrtPoly Residues := ⟨kept, List.replicate kept.length 0, List.length_replicate⟩
  { cpu with
    c0 := zero
    c1 := zero
    sameBasis := rfl
    level := BitVec.ofNat 64 params.length - BitVec.ofNat 64 count }

/-- A host ciphertext with too few towers is grown before the rows replace its elements. -/
def ensureUpToDateCpuCopy [Zero Residues] (cpu : HostCiphertext Residues Factor)
    (device : Ciphertext Residues Factor) : Option (HostCiphertext Residues Factor) := do
  let raw ← device.store scheme
  if cpu.towers < raw.numRes then
    -- More rows than regular primes are taken for the extended basis of the copy's own towers.
    let params := if scheme.chain.length < raw.numRes then cpu.c0.moduli ++ scheme.special
      else scheme.chain
    getOpenFheCipherText scheme (cpu.grow params raw.numRes) raw
  else getOpenFheCipherText scheme cpu raw

end Fideslib.Transfer
