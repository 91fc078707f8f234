/-
This file stores and loads an extended polynomial whose limbs are split between devices.
-/

import Fideslib.Library.PartialLists
import Fideslib.Transfer.RoundTrip

namespace Fideslib.Transfer

/-- A split gives every regular prime of the chain to one device, whose primes ascend. -/
structure DeviceSplit (scheme : Scheme) where
  records : List (List Nat)
  ascending : ∀ own ∈ records, own.Pairwise (· < ·)
  shared : records.flatten.Perm (List.range scheme.chain.length)
  flexibleAutoExt : Bool

variable {Word : Type} {scheme : Scheme}

namespace DeviceSplit

/-- A regular limb lies at one place of one device. -/
def limbGPUid (split : DeviceSplit scheme) (prime : Nat) : Nat × Nat :=
  let device := split.records.findIdx fun own => own.contains prime
  (device, (split.records.getD device []).idxOf prime)

/-- A device has the limbs of its own primes up to the level. -/
def getLimbSize (split : DeviceSplit scheme) (own : List Nat) (level : Int) : Nat :=
  let last := if level = scheme.chain.length then
    level - 1 - if split.flexibleAutoExt then 1 else 0 else level
  (own.takeWhile fun prime : Nat => (prime : Int) ≤ last).length

/-- The special primes are shared out in runs, and the last device takes the rest. -/
def splitSpecial : Nat → Nat → Nat → List (List Nat)
  | 0, _, _ => []
  | devices + 1, first, count =>
      let own := count / (devices + 1)
      List.range' first own :: splitSpecial devices (first + own) (count - own)

/-- A special limb is worked on by the device that it was given to. -/
def splitSpecialMeta (split : DeviceSplit scheme) : List (List Nat) :=
  splitSpecial split.records.length 0 scheme.special.length

end DeviceSplit

/-- A device holds regular limbs of its own primes and a buffer for every special prime. -/
structure LimbPartition (Word : Type) where
  limb : List (List Word)
  specialLimb : List (List Word)
deriving DecidableEq

/-- A polynomial has one level, one flag and one way of allocation for all its devices. -/
structure SplitPoly (Word : Type) where
  level : Int
  modUp : Bool
  bufferLimb : Bool
  gpu : List (LimbPartition Word)
deriving DecidableEq

/-- The words of a row replace the first words of a limb that has room for them. -/
def loadConvert (row limb : List Word) : Option (List Word) :=
  if row.length ≤ limb.length then some (row ++ limb.drop row.length) else none

namespace LimbPartition

/-- Missing limbs are allocated, with whatever words the memory holds. -/
def generateLimbToLevel (split : DeviceSplit scheme) (blank : List Word) (level : Int)
    (own : List Nat) (device : LimbPartition Word) : LimbPartition Word :=
  { device with
    limb := device.limb ++
      List.replicate (split.getLimbSize own level - device.limb.length) blank }

/-- A device whose limbs share one allocation gets the limbs of all its primes. -/
def generateLimbSingleMalloc (blank : List Word) (own : List Nat) (device : LimbPartition Word) :
    LimbPartition Word :=
  { device with limb := List.replicate own.length blank }

/-- A device without special limbs gets one for every special prime. -/
def generateSpecialLimb (count : Nat) (blank : List Word) (device : LimbPartition Word) :
    LimbPartition Word :=
  if device.specialLimb.length = 0 then
    { device with specialLimb := List.replicate count blank }
  else device

/-- A row replaces the words of a regular limb. -/
def loadLimb (place : Nat) (row : List Word) (device : LimbPartition Word) :
    Option (LimbPartition Word) := do
  let limb ← device.limb[place]?
  let loaded ← loadConvert row limb
  some { device with limb := device.limb.set place loaded }

/-- A row replaces the words of a special limb. -/
def loadSpecial (place : Nat) (row : List Word) (device : LimbPartition Word) :
    Option (LimbPartition Word) := do
  let limb ← device.specialLimb[place]?
  let loaded ← loadConvert row limb
  some { device with specialLimb := device.specialLimb.set place loaded }

end LimbPartition

namespace SplitPoly

/-- This is the limb of a regular prime. -/
def limbAt (split : DeviceSplit scheme) (gpu : List (LimbPartition Word)) (prime : Nat) :
    Option (List Word) := do
  let device ← gpu[(split.limbGPUid prime).1]?
  device.limb[(split.limbGPUid prime).2]?

/-- This is the limb that a device has for a special prime. -/
def specialAt (gpu : List (LimbPartition Word)) (device prime : Nat) : Option (List Word) := do
  let partition ← gpu[device]?
  partition.specialLimb[prime]?

/-- The special limbs of one device after the other are stored until all rows are filled. -/
def storeSpecial (count specialCount : Nat) : Nat → List (LimbPartition Word) →
    Option (List (List Word))
  | _, [] => some []
  | base, device :: rest =>
      if base < specialCount then do
        let rows ← (List.range (min count (specialCount - base))).mapM fun place =>
          device.specialLimb[place]?
        let others ← storeSpecial count specialCount (base + rows.length) rest
        some (rows ++ others)
      else some []

/-- The regular limbs are stored in the order of the primes, and the special limbs follow. A level
of −1 becomes the largest size, so that only the number of rows bounds the first loop. -/
def store (split : DeviceSplit scheme) (poly : SplitPoly Word) : Option (List (List Word)) := do
  let specialCount := if poly.modUp then scheme.special.length else 0
  let count := if poly.level < 0 then specialCount else (poly.level + 1).toNat
  let regular ← (List.range count).mapM fun prime => limbAt split poly.gpu prime
  let special ← storeSpecial scheme.special.length specialCount 0 poly.gpu
  some (regular.take (poly.level + 1).toNat ++ special)

/-- A level that is high enough leaves the limbs as they are. -/
def grow (split : DeviceSplit scheme) (blank : List Word) (level : Int) (poly : SplitPoly Word) :
    SplitPoly Word :=
  if level ≤ poly.level then poly
  else if poly.bufferLimb then
    { poly with
      level := level
      gpu := List.zipWith (LimbPartition.generateLimbSingleMalloc blank) split.records poly.gpu }
  else
    { poly with
      level := level
      gpu := List.zipWith (LimbPartition.generateLimbToLevel split blank level) split.records
        poly.gpu }

/-- Only a polynomial whose first device has no special limbs gets them. -/
def generateSpecialLimbs (scheme : Scheme) (blank : List Word) (poly : SplitPoly Word) :
    SplitPoly Word :=
  if poly.gpu.head?.any fun device => !device.specialLimb.isEmpty then poly
  else
    { poly with
      gpu := poly.gpu.map (LimbPartition.generateSpecialLimb scheme.special.length blank) }

/-- A row of the chain is written to the device of its prime. -/
def writeRegular (split : DeviceSplit scheme) (prime : Nat) (row : List Word)
    (gpu : List (LimbPartition Word)) : Option (List (LimbPartition Word)) := do
  let device ← gpu[(split.limbGPUid prime).1]?
  let loaded ← device.loadLimb (split.limbGPUid prime).2 row
  some (gpu.set (split.limbGPUid prime).1 loaded)

/-- Another row is written to the special limb of its place on every device. -/
def writeSpecial (place : Nat) (row : List Word) (gpu : List (LimbPartition Word)) :
    Option (List (LimbPartition Word)) :=
  gpu.mapM fun device => device.loadSpecial place row

/-- The level is that of the rows of the chain, all other rows are special limbs, and one special
limb alone raises the level. The flag of the polynomial stays. -/
def load (split : DeviceSplit scheme) (blank : List Word) (data : List (List Word))
    (moduli : List Nat) (poly : SplitPoly Word) : Option (SplitPoly Word) := do
  let limbsize := RnsPoly.limbsize scheme moduli data.length
  let grown := poly.grow split blank (limbsize - 1)
  let levelled := if (limbsize : Int) - 1 < grown.level then
    { grown with level := (limbsize : Int) - 1 } else grown
  if moduli.take limbsize = scheme.chain.take limbsize then
    let regular ← PartialLists.visitInOrder (writeRegular split) 0 (data.take limbsize) levelled.gpu
    let written := { levelled with gpu := regular }
    let extended := if limbsize < data.length then written.generateSpecialLimbs scheme blank
      else written
    if ((moduli.take data.length).drop limbsize).isPrefixOf scheme.special then
      let special ← PartialLists.visitInOrder writeSpecial 0 (data.drop limbsize) extended.gpu
      some
        { extended with
          level := if data.length - limbsize = 1 then extended.level + 1 else extended.level
          gpu := special }
    else none
  else none

/-- A loaded polynomial agrees on the level, the flag, the regular limbs and the special limbs of
the devices that work on them. -/
structure Restores (split : DeviceSplit scheme) (poly loaded : SplitPoly Word) : Prop where
  level : loaded.level = poly.level
  modUp : loaded.modUp = poly.modUp
  limbs : ∀ prime : Nat, (prime : Int) ≤ poly.level →
    limbAt split loaded.gpu prime = limbAt split poly.gpu prime
  specials : ∀ device own, split.splitSpecialMeta[device]? = some own → ∀ prime ∈ own,
    specialAt loaded.gpu device prime = specialAt poly.gpu device prime

/-- A download and an upload restore a polynomial when both succeed and the target agrees. -/
def RoundTrips (split : DeviceSplit scheme) (blank : List Word) (moduli : List Nat)
    (poly target : SplitPoly Word) : Prop :=
  ∃ rows loaded, poly.store split = some rows ∧
    target.load split blank rows moduli = some loaded ∧ Restores split poly loaded

theorem grow_modUp (split : DeviceSplit scheme) (blank : List Word) (level : Int)
    (poly : SplitPoly Word) : (poly.grow split blank level).modUp = poly.modUp := by
  unfold grow
  split_ifs <;> rfl

theorem generateSpecialLimbs_modUp (blank : List Word) (poly : SplitPoly Word) :
    (poly.generateSpecialLimbs scheme blank).modUp = poly.modUp := by
  unfold generateSpecialLimbs
  split_ifs <;> rfl

/-- A load leaves the flag of the target as it was. -/
theorem load_modUp {split : DeviceSplit scheme} {blank : List Word} {data : List (List Word)}
    {moduli : List Nat} {poly loaded : SplitPoly Word}
    (done : poly.load split blank data moduli = some loaded) : loaded.modUp = poly.modUp := by
  unfold load at done
  simp only at done
  split at done
  case isFalse => cases done
  case isTrue =>
    obtain ⟨regular, -, done⟩ := Option.bind_eq_some_iff.mp done
    split at done
    case isFalse => cases done
    case isTrue =>
      obtain ⟨special, -, done⟩ := Option.bind_eq_some_iff.mp done
      cases done
      change SplitPoly.modUp (if _ then generateSpecialLimbs _ _ _ else _) = _
      split_ifs
      all_goals simp only [generateSpecialLimbs_modUp, grow_modUp]

end SplitPoly

/-- A ciphertext has two polynomials over the same devices. -/
structure SplitCiphertext (Word Factor : Type) where
  c0 : SplitPoly Word
  c1 : SplitPoly Word
  noiseFactor : Factor
  noiseLevel : Nat
  keyID : String
  slots : Nat

/-- The raw form has the rows of both polynomials and the other data. -/
structure RawRows (Word Factor : Type) where
  numRes : Nat
  sub0 : List (List Word)
  sub1 : List (List Word)
  noise : Factor
  noiseLevel : Nat
  keyid : String
  slots : Nat

namespace SplitCiphertext

variable {Factor : Type}

/-- The number of rows is that of the first polynomial. -/
def store (split : DeviceSplit scheme) (ct : SplitCiphertext Word Factor) :
    Option (RawRows Word Factor) := do
  let sub0 ← ct.c0.store split
  let sub1 ← ct.c1.store split
  some
    { numRes := (ct.c0.level + 1).toNat + if ct.c0.modUp then scheme.special.length else 0
      sub0 := sub0
      sub1 := sub1
      noise := ct.noiseFactor
      noiseLevel := ct.noiseLevel
      keyid := ct.keyID
      slots := ct.slots }

/-- Both polynomials load their rows for the same moduli. -/
def load (split : DeviceSplit scheme) (blank : List Word) (raw : RawRows Word Factor)
    (moduli : List Nat) (ct : SplitCiphertext Word Factor) :
    Option (SplitCiphertext Word Factor) := do
  let c0 ← ct.c0.load split blank raw.sub0 moduli
  let c1 ← ct.c1.load split blank raw.sub1 moduli
  some
    { c0 := c0
      c1 := c1
      noiseFactor := raw.noise
      noiseLevel := raw.noiseLevel
      keyID := raw.keyid
      slots := raw.slots }

/-- A download and an upload restore a ciphertext when both polynomials agree afterwards. -/
def RoundTrips (split : DeviceSplit scheme) (blank : List Word) (moduli : List Nat)
    (ct target : SplitCiphertext Word Factor) : Prop :=
  ∃ raw loaded, ct.store split = some raw ∧ target.load split blank raw moduli = some loaded ∧
    SplitPoly.Restores split ct.c0 loaded.c0 ∧ SplitPoly.Restores split ct.c1 loaded.c1

end SplitCiphertext

end Fideslib.Transfer
