/-
This file models the placement of the limbs on the devices of a context.
-/

import Mathlib
import Fideslib.Library.Regions
import Fideslib.Library.NestedTable
import Fideslib.Registry.Context

namespace Fideslib.Registry.Placement

open NestedTable

/-- The constant tables hold this many primes and digits. -/
def MAXP : Nat := 64

def MAXD : Nat := 8

/-- A failure is one of the registry's own steps or a checked read out of range. -/
inductive Failure where
  | context (failure : ContextError)
  | outOfRange
deriving DecidableEq, Repr

/-- A record of a special prime has no digit. -/
structure LimbRecord where
  id : Nat
  type : LimbType
  digit : Int := -1
deriving DecidableEq, Repr

/-- A prime without a given type has narrow limbs up to 30 bits. -/
def limbType (prime : PrimeRecord) : LimbType :=
  prime.type.getD (if prime.bits ≤ 30 then .U32 else .U64)

/-- A narrow limb keeps the low half of a word. -/
def convert : LimbType → Nat → Nat
  | .U32, word => word % 2 ^ 32
  | .U64, word => word

def wordBytes : LimbType → Nat
  | .U32 => 4
  | .U64 => 8

def generateGPUdigits (dnum : Int) (devs : List Int) : List (List Int) :=
  devs.map fun _ => (List.range dnum.toNat).map Int.ofNat

/-- The digits share the primes evenly, or follow the partition of the host context. -/
def digitOf (dnum : Int) (raw : Option RawParams) (size i : Nat) (prime : PrimeRecord) : Int :=
  match raw with
  | none => ((i : Int) * dnum).tdiv size
  | some raw => findDigitOnParam raw prime.p

def digitMessage : String :=
  "digit decomposition must be a contiguous ascending partition of the prime order, with every prime assigned to " ++
    "exactly one of the dnum digits"

/-- The loop of the primes gives each next prime to the next device. -/
def generateMetaFrom (devices size : Nat) (dnum : Int) (raw : Option RawParams) :
    List PrimeRecord → Nat → Int → List (List LimbRecord) →
      Except Failure (List (List LimbRecord))
  | [], _, _, meta_ => .ok meta_
  | prime :: primes, i, prev_digit_, meta_ =>
      let digit_ := digitOf dnum raw size i prime
      if digit_ < prev_digit_ ∨ digit_ < 0 ∨ digit_ ≥ dnum then
        .error (.context (.runtimeError digitMessage))
      else if devices = 0 then .error (.context .divisionByZero)
      else
        generateMetaFrom devices size dnum raw primes (i + 1) digit_
          (meta_.modify (i % devices) (· ++ [⟨i, limbType prime, digit_⟩]))

def generateMeta (GPUid : List Int) (dnum : Int) (prime : List PrimeRecord)
    (raw : Option RawParams) : Except Failure (List (List LimbRecord)) :=
  generateMetaFrom GPUid.length prime.length dnum raw prime 0 (-1)
    (List.replicate GPUid.length [])

def computeLogQ_d (dnum : Int) (meta_ : List (List LimbRecord)) (prime : List PrimeRecord) :
    List Int :=
  (List.range dnum.toNat).map fun (digit : Nat) =>
    ((meta_.flatten.filter fun j => j.digit = (digit : Int)).map fun j =>
      (prime.getD j.id { : PrimeRecord }).bits).sum

def generateSpecialMeta (specialPrime : List PrimeRecord) (ID0 : Nat) (GPUid : List Int) :
    List (List LimbRecord) :=
  GPUid.map fun _ => specialPrime.mapIdx fun i prime =>
    { id := ID0 + i, type := limbType prime : LimbRecord }

/-- Each device takes its share of the special primes that are left. -/
def splitFrom (specialMeta : List LimbRecord) : Nat → Nat → List (List LimbRecord)
  | 0, _ => []
  | devices + 1, init =>
      let num := (specialMeta.length - init) / (devices + 1)
      (specialMeta.drop init).take num :: splitFrom specialMeta devices (init + num)

def generateSplitSpecialMeta (specialMeta : List LimbRecord) (GPUid : List Int) :
    List (List LimbRecord) :=
  splitFrom specialMeta GPUid.length 0

/-- The records of the digits list the primes in their order. -/
def generateDecompMeta (meta_ : List (List LimbRecord)) (digitGPUid : List (List Int)) (L : Int) :
    List (List (List LimbRecord)) :=
  digitGPUid.map fun digits => digits.map fun d =>
    (List.range (L + 1).toNat).flatMap fun primeid =>
      meta_.flatten.filter fun l => l.id = primeid ∧ l.digit = d

/-- The last record of a prime is copied to its place. -/
def generateGatherMeta (meta_ : List (List LimbRecord)) (L : Int) : List LimbRecord :=
  (List.range (L + 1).toNat).map fun i =>
    meta_.flatten.foldl
      (fun record l => if l.id = i then { id := i, type := l.type, digit := l.digit } else record)
      { id := 0, type := .U32 }

/-- A record whose prime has no place in the table is out of its range. -/
def writeLimb (res : List (Nat × Nat)) (write : (Nat × Nat) × LimbRecord) :
    Except Failure (List (Nat × Nat)) :=
  if write.2.id < res.length then .ok (res.set write.2.id write.1) else .error .outOfRange

def generateLimbGPUid (meta_ : List (List LimbRecord)) (L : Int)
    (SPECIALmeta : List (List LimbRecord)) (K : Int) : Except Failure (List (Nat × Nat)) :=
  (places meta_ ++ places SPECIALmeta).foldlM writeLimb
    (List.replicate (L + 1 + K).toNat (0, 0))

end Fideslib.Registry.Placement

namespace Fideslib.Registry

open Placement (Failure LimbRecord)

/-- These are the tables of the limbs that the constructor of a context fills. -/
structure Placement where
  L : Int
  K : Int
  dnum : Int
  meta_ : List (List LimbRecord)
  splitSpecialMeta : List (List LimbRecord)
  decompMeta : List (List (List LimbRecord))
  gatherMeta : List LimbRecord
  limbGPUid : List (Nat × Nat)
deriving DecidableEq, Repr

namespace Placement

/-- The constant tables must hold the primes and the digits. -/
def checkTables (q p : List PrimeRecord) (meta_ : List (List LimbRecord))
    (smeta : List LimbRecord) (digitGPUid : List (List Int)) : Except Failure Unit :=
  let digits : Int := (digitGPUid.map fun g => (g.length : Int)).foldl max 0
  let maxDigit := ((meta_.flatten ++ smeta).map LimbRecord.digit).foldl max (-1)
  if q.length + p.length > MAXP then
    .error (.context (.runtimeError ("FIDESlib: this parameter set needs " ++ toString q.length ++
      " ciphertext primes + " ++ toString p.length ++ " special primes = " ++
      toString (q.length + p.length) ++ ", but the GPU constant tables hold MAXP = " ++
      toString MAXP ++ ". Lower `depth`, or raise MAXP in src/ConstantsGPU.cuh and rebuild.")))
  else if digits > MAXD ∨ maxDigit ≥ MAXD then
    .error (.context (.runtimeError ("FIDESlib: this parameter set needs " ++
      toString (max digits (maxDigit + 1)) ++
      " decomposition digits but the GPU constant tables hold MAXD = " ++ toString MAXD ++
      ". Lower `dnum`, or raise MAXD in src/ConstantsGPU.cuh and rebuild.")))
  else .ok ()

/-- A failure of the registry's own steps is a failure of the construction. -/
def lift {Result : Type} (step : Except ContextError Result) : Except Failure Result :=
  step.mapError .context

/-- The first entry is read with a check of the range. -/
def atZero {Item : Type} : List Item → Except Failure Item
  | [] => .error .outOfRange
  | item :: _ => .ok item

/-- The constructor fills the tables in the order of the members. -/
def ContextData (asserts : Bool) (param : Parameters) (devs : List Int) :
    Except Failure Placement := do
  let (_, primes) ← lift (computeLogQ asserts param.L param.primes)
  let dnum ← lift (validateDnum param.dnum)
  let GPUdigits := generateGPUdigits dnum devs
  let prime ← lift (resize (param.L + 1) primes)
  let meta_ ← generateMeta devs dnum prime param.raw
  let (K, Sprimes) ←
    lift (computeK asserts (computeLogQ_d dnum meta_ prime) param.Sprimes param.K)
  let (_, filled) ← lift (computeLogQ asserts (K - 1) Sprimes)
  let specialPrime ← lift (resize K filled)
  let specialMeta := generateSpecialMeta specialPrime (param.L + 1).toNat devs
  let first ← atZero specialMeta
  let splitSpecialMeta := generateSplitSpecialMeta first devs
  let decompMeta := generateDecompMeta meta_ GPUdigits param.L
  let gatherMeta := generateGatherMeta meta_ param.L
  let limbGPUid ← generateLimbGPUid meta_ param.L splitSpecialMeta K
  checkTables prime specialPrime meta_ first GPUdigits
  return { L := param.L, K, dnum, meta_, splitSpecialMeta, decompMeta, gatherMeta, limbGPUid }

/-- The pools of the devices are checked before the construction. -/
def GenCryptoContextGPU (asserts : Bool) (param : Parameters) (devs : List Int) :
    Except Failure Placement :=
  if devs.length > MAXG then
    .error (.context (.runtimeError ("FIDESlib: cannot build a context for " ++ toString devs.length ++
      " devices: the per-device pools hold MAXG = " ++ toString MAXG ++
      ". Use fewer devices, or raise MAXG in src/forwardDefs.cuh and rebuild.")))
  else ContextData asserts param devs

end Placement
end Fideslib.Registry
