/-
This file models a switching key that keeps its raw limbs on the host and loads them again.
-/

import Fideslib.Registry.Placement
import Fideslib.RotationKeys.Cache

namespace Fideslib.KeySnapshot

open Registry (LimbType)
open Registry.Placement (LimbRecord convert wordBytes)

/-- The calls of a key end with these failures. -/
inductive Failure where
  | assertion (condition : String)
  | invalidArgument (message : String)
  | outOfRange
deriving DecidableEq, Repr

/-- Every prime of a digit is a prime of the device, and is in one digit only. -/
structure Context where
  N : Nat
  primes : Nat → Nat
  meta_ : List LimbRecord
  DECOMPmeta : List (List LimbRecord)
  DIGITmeta : List (List LimbRecord)
  held : ∀ records ∈ DECOMPmeta, ∀ record ∈ records, ∃ own ∈ meta_, own.id = record.id
  distinct : (DECOMPmeta.flatten.map LimbRecord.id).Nodup

/-- A word of a limb has no value before something is copied to it. -/
structure LimbWords where
  primeid : Nat
  type : LimbType
  v : List (Option Nat)
deriving DecidableEq, Repr

/-- A limb is its words and the address of its buffer. -/
structure Limb where
  words : LimbWords
  buffer : Nat
deriving DecidableEq, Repr

def Limb.ownedBytes (limb : Limb) : Nat := limb.words.v.length * wordBytes limb.words.type

/-- The tables of the device hold the buffers of the limbs, and keep those of limbs that are gone. -/
structure LimbPartition where
  DECOMPlimb : List (List Limb)
  DIGITlimb : List (List Limb)
  DECOMPlimbptr : Nat → Nat → Option Nat
  DIGITlimbptr : Nat → Nat → Option Nat
  limbptr : Nat → Option Nat
  allocated : Nat

/-- A new partition has its digits without limbs. -/
def LimbPartition.new (context : Context) : LimbPartition where
  DECOMPlimb := List.replicate context.DECOMPmeta.length []
  DIGITlimb := List.replicate context.DIGITmeta.length []
  DECOMPlimbptr := fun _ _ => none
  DIGITlimbptr := fun _ _ => none
  limbptr := fun _ => none
  allocated := 0

section Generate

variable (context : Context)

/-- These are the words of a limb that has just been allocated. -/
def blank (record : LimbRecord) : LimbWords :=
  ⟨record.id, record.type, List.replicate context.N none⟩

/-- The missing limbs of the first records are allocated. -/
def generate (records : List LimbRecord) (count : Nat) (state : List Limb × Nat) :
    List Limb × Nat :=
  let missing := (records.take count).drop state.1.length
  (state.1 ++ missing.mapIdx fun i record => ⟨blank context record, state.2 + i⟩,
    state.2 + missing.length)

/-- Each prime of the device that is the next prime of the digit generates the limbs up to it. -/
def generateDecompGroup (records : List LimbRecord) (state : List Limb × Nat) : List Limb × Nat :=
  (List.range records.length).foldl (fun state j =>
    context.meta_.foldl (fun state own =>
      if records[j]?.map LimbRecord.id = some own.id then generate context records (j + 1) state
      else state) state) state

def generateDigitGroup (records : List LimbRecord) (state : List Limb × Nat) : List Limb × Nat :=
  generate context records records.length state

/-- The digits are generated one after the other. -/
def generateGroups (step : List LimbRecord → List Limb × Nat → List Limb × Nat) :
    List (List LimbRecord) → List (List Limb) → Nat → List (List Limb) × Nat
  | [], _, allocated => ([], allocated)
  | records :: digits, groups, allocated =>
      let first := step records (groups.headD [], allocated)
      let rest := generateGroups step digits groups.tail first.2
      (first.1 :: rest.1, rest.2)

/-- The buffer of a limb, where there is one. -/
def bufferAt (groups : List (List Limb)) (i j : Nat) : Option Nat :=
  (groups.getD i [])[j]?.map Limb.buffer

/-- The tables of the decomposition are written whole, and those of the digits at the new limbs. -/
def LimbPartition.generateAllDecompAndDigit (partition : LimbPartition) : LimbPartition :=
  if (partition.DECOMPlimb.headD []).isEmpty then
    let decomp := generateGroups (generateDecompGroup context) context.DECOMPmeta
      partition.DECOMPlimb partition.allocated
    let digit := generateGroups (generateDigitGroup context) context.DIGITmeta
      partition.DIGITlimb decomp.2
    { partition with
      DECOMPlimb := decomp.1
      DIGITlimb := digit.1
      DECOMPlimbptr := fun i j =>
        if j < (context.DECOMPmeta.getD i []).length then bufferAt decomp.1 i j
        else partition.DECOMPlimbptr i j
      DIGITlimbptr := fun i j =>
        if (partition.DIGITlimb.getD i []).length ≤ j ∧ j < (digit.1.getD i []).length then
          bufferAt digit.1 i j
        else partition.DIGITlimbptr i j
      allocated := digit.2 }
  else partition

/-- Every limb is freed, and the tables stay. -/
def LimbPartition.freeDecompDigitLimbs (partition : LimbPartition) : LimbPartition :=
  { partition with
    DECOMPlimb := partition.DECOMPlimb.map fun _ => []
    DIGITlimb := partition.DIGITlimb.map fun _ => [] }

end Generate

section Load

variable (context : Context)

/-- The loop over the limbs of a raw digit stops at the first with this modulus. -/
def matchRow (prime : Nat) : List (List Nat) → List Nat → Except Failure (Option (List Nat))
  | [], _ => .ok none
  | _ :: _, [] => .error .outOfRange
  | row :: rows, modulus :: moduli =>
      if prime = modulus then .ok (some row) else matchRow prime rows moduli

/-- The first words of a limb are replaced, and words past the end of the source have no value. -/
def LimbWords.load_convert (words : LimbWords) (src : List Nat) (n : Nat) :
    Except Failure LimbWords :=
  if n ≤ words.v.length then
    .ok { words with
      v := ((List.range n).map fun i => src[i]?.map (convert words.type)) ++ words.v.drop n }
  else .error (.assertion "n <= v.size")

/-- A limb is loaded from the raw limb of its prime, if the raw digit has one. -/
def LimbWords.load (data : List (List (List Nat))) (n : Nat) (moduli : List (List Nat)) (i : Nat)
    (words : LimbWords) : Except Failure LimbWords :=
  match data[i]? with
  | none => .error .outOfRange
  | some rows =>
      match matchRow (context.primes words.primeid) rows (moduli.getD i []) with
      | .error failure => .error failure
      | .ok none => .ok words
      | .ok (some src) => words.load_convert src n

/-- The limbs of a digit are loaded until one fails. -/
def loadGroup (load : LimbWords → Except Failure LimbWords) :
    List Limb → List Limb × Option Failure
  | [] => ([], none)
  | limb :: limbs =>
      match load limb.words with
      | .error failure => (limb :: limbs, some failure)
      | .ok words =>
          let rest := loadGroup load limbs
          ({ limb with words } :: rest.1, rest.2)

/-- The digits are loaded until a limb fails. -/
def loadGroups (load : Nat → LimbWords → Except Failure LimbWords) :
    Nat → List (List Limb) → List (List Limb) × Option Failure
  | _, [] => ([], none)
  | i, group :: groups =>
      let first := loadGroup (load i) group
      match first.2 with
      | some failure => (first.1 :: groups, some failure)
      | none =>
          let rest := loadGroups load (i + 1) groups
          (first.1 :: rest.1, rest.2)

/-- The table of the regular limbs gets the buffers of the decomposition. -/
def limbTable (limbs : List Limb) : Nat → Option Nat :=
  limbs.foldl (fun table limb k =>
    if context.meta_[k]?.map LimbRecord.id = some limb.words.primeid then some limb.buffer
    else table k) fun _ => none

/-- The decomposition is loaded first, and the digits only if it has not failed. -/
def LimbPartition.loadRows (data : List (List (List Nat))) (n : Nat) (moduli : List (List Nat))
    (partition : LimbPartition) : LimbPartition × Option Failure :=
  let decomp := loadGroups (LimbWords.load context data n moduli) 0 partition.DECOMPlimb
  match decomp.2 with
  | some failure => ({ partition with DECOMPlimb := decomp.1 }, some failure)
  | none =>
      let digit := loadGroups (LimbWords.load context data n moduli) 0 partition.DIGITlimb
      ({ partition with
        DECOMPlimb := decomp.1
        DIGITlimb := digit.1
        limbptr := limbTable context decomp.1.flatten }, digit.2)

/-- All rows must have the length of the first that is not empty. -/
def rowWords : List (List Nat) → Nat → Except Failure Nat
  | [], n => .ok n
  | row :: rows, n =>
      let n := if n = 0 then row.length else n
      if row.length ≠ n then .error (.invalidArgument "loadDecompDigit: rows of different lengths")
      else rowWords rows n

/-- The nested vectors of a key are loaded after their lengths are checked. -/
def LimbPartition.loadDecompDigit (data : List (List (List Nat))) (moduli : List (List Nat))
    (partition : LimbPartition) : LimbPartition × Option Failure :=
  match rowWords data.flatten 0 with
  | .error failure => (partition, some failure)
  | .ok n => partition.loadRows context data n moduli

end Load

end Fideslib.KeySnapshot

namespace Fideslib.KeySnapshot

open Registry.Placement (wordBytes)

/-- A raw key has two polynomials, whose digits have one modulus and one row of words for each of
their limbs. -/
structure RawKeySwitchKey where
  r_key_moduli : List (List (List Nat))
  r_key : List (List (List (List Nat)))
  keyid : String
  words : Nat
  polys : r_key.length = 2
  shape : r_key.map (fun poly => poly.map List.length) =
    r_key_moduli.map fun poly => poly.map List.length
  rows : ∀ poly ∈ r_key, ∀ digit ∈ poly, ∀ limb ∈ digit, limb.length = words

/-- The rows of the host share one buffer. -/
structure HostRows where
  words : Nat → Nat
  nrows : Nat
  n : Nat

/-- These are the words that a pointer to a row reaches. -/
def HostRows.row (rows : HostRows) (r : Nat) : List Nat :=
  (List.range rows.n).map fun i => rows.words (r * rows.n + i)

structure Snapshot where
  rows : HostRows
  moduli : List (List (List Nat))
  first_row : List (List Nat)

def memcpy (words : Nat → Nat) (start : Nat) (src : List Nat) : Nat → Nat := fun address =>
  if start ≤ address ∧ address < start + src.length then src.getD (address - start) 0
  else words address

/-- The limbs of a digit are copied to the next rows. -/
def copyLimbs (n : Nat) : List (List Nat) → Nat × (Nat → Nat) → Except Failure (Nat × (Nat → Nat))
  | [], state => .ok state
  | limb :: limbs, (row, words) =>
      if limb.length ≠ n then
        .error (.invalidArgument "KeySwitchingKey: limbs of different lengths")
      else copyLimbs n limbs (row + 1, memcpy words (row * n) limb)

/-- The first row of each digit is recorded before its limbs are copied. -/
def copyDigits (n : Nat) : List (List (List Nat)) → Nat × (Nat → Nat) →
    Except Failure (List Nat × Nat × (Nat → Nat))
  | [], state => .ok ([], state)
  | digit :: digits, state => do
      let copied ← copyLimbs n digit state
      let (first_row, last) ← copyDigits n digits copied
      return (state.1 :: first_row, last)

def copyPolys (n : Nat) : List (List (List (List Nat))) → Nat × (Nat → Nat) →
    Except Failure (List (List Nat) × Nat × (Nat → Nat))
  | [], state => .ok ([], state)
  | poly :: polys, state => do
      let (first_row, copied) ← copyDigits n poly state
      let (others, last) ← copyPolys n polys copied
      return (first_row :: others, last)

/-- The buffer holds some words before the limbs are copied to it. -/
def takeSnapshot (buffer : Nat → Nat) (rkk : RawKeySwitchKey) : Except Failure Snapshot := do
  let limbs := rkk.r_key.flatten.flatten
  let n := (limbs.getLast?.map List.length).getD 0
  let (first_row, _, words) ← copyPolys n rkk.r_key (0, buffer)
  return { rows := ⟨words, limbs.length, n⟩, moduli := rkk.r_key_moduli, first_row }

structure KeySwitchingKey where
  keyID : String
  a : LimbPartition
  b : LimbPartition
  snapshot : Snapshot
  resident : Bool
  has_snapshot : Bool
  limb_bytes : Nat

namespace KeySwitchingKey

variable (context : Context)

/-- A new key has neither limbs nor a snapshot. -/
def new : KeySwitchingKey where
  keyID := ""
  a := .new context
  b := .new context
  snapshot := ⟨⟨fun _ => 0, 0, 0⟩, [], []⟩
  resident := false
  has_snapshot := false
  limb_bytes := 0

def allocateLimbs (key : KeySwitchingKey) : KeySwitchingKey :=
  { key with
    a := key.a.generateAllDecompAndDigit context
    b := key.b.generateAllDecompAndDigit context }

/-- The second polynomial is loaded only if the first has not failed. -/
def loadBoth (first second : LimbPartition → LimbPartition × Option Failure)
    (key : KeySwitchingKey) : KeySwitchingKey × Option Failure :=
  let a := first key.a
  match a.2 with
  | some failure => ({ key with a := a.1 }, some failure)
  | none =>
      let b := second key.b
      ({ key with a := a.1, b := b.1 }, b.2)

def loadLimbs (rkk : RawKeySwitchKey) (key : KeySwitchingKey) : KeySwitchingKey × Option Failure :=
  (key.allocateLimbs context).loadBoth
    (LimbPartition.loadDecompDigit context (rkk.r_key.getD 0 []) (rkk.r_key_moduli.getD 0 []))
    (LimbPartition.loadDecompDigit context (rkk.r_key.getD 1 []) (rkk.r_key_moduli.getD 1 []))

end KeySwitchingKey

/-- The rows of a polynomial are found by the first row of their digit. -/
def Snapshot.digitRows (snapshot : Snapshot) (p : Nat) : List (List (List Nat)) :=
  (snapshot.moduli.getD p []).mapIdx fun d moduli =>
    (List.range moduli.length).map fun l =>
      snapshot.rows.row ((snapshot.first_row.getD p []).getD d 0 + l)

namespace KeySwitchingKey

variable (context : Context)

def loadLimbsFromSnapshot (key : KeySwitchingKey) : KeySwitchingKey × Option Failure :=
  let load (p : Nat) := LimbPartition.loadRows context (key.snapshot.digitRows p)
    key.snapshot.rows.n (key.snapshot.moduli.getD p [])
  (key.allocateLimbs context).loadBoth (load 0) (load 1)

/-- The bytes are those of the primes of both kinds, for each of the two polynomials. -/
def computeLimbBytes : Nat :=
  2 * ((context.DECOMPmeta.flatten ++ context.DIGITmeta.flatten).map fun record =>
    context.N * wordBytes record.type).sum

/-- A lazy key takes its snapshot only, and an eager one loads its limbs. -/
def Initialize (buffer : Nat → Nat) (rkk : RawKeySwitchKey) (isLazy : Bool)
    (key : KeySwitchingKey) : KeySwitchingKey × Option Failure :=
  let named := { key with keyID := rkk.keyid }
  if isLazy then
    match takeSnapshot buffer rkk with
    | .error failure => (named, some failure)
    | .ok snapshot => ({ named with
        snapshot
        has_snapshot := true
        resident := false
        limb_bytes := computeLimbBytes context }, none)
  else
    let loaded := named.loadLimbs context rkk
    match loaded.2 with
    | some _ => loaded
    | none => ({ loaded.1 with resident := true, limb_bytes := computeLimbBytes context }, none)

def offload (key : KeySwitchingKey) : KeySwitchingKey × Option Failure :=
  if key.resident then
    if key.has_snapshot then
      ({ key with
        a := key.a.freeDecompDigitLimbs
        b := key.b.freeDecompDigitLimbs
        resident := false }, none)
    else (key, some (.assertion "Key without a host snapshot cannot be offloaded"))
  else (key, none)

def ensureResident (key : KeySwitchingKey) : KeySwitchingKey × Option Failure :=
  if key.resident then (key, none)
  else if key.has_snapshot then
    let loaded := key.loadLimbsFromSnapshot context
    match loaded.2 with
    | some _ => loaded
    | none => ({ loaded.1 with resident := true }, none)
  else (key, some (.assertion "Key without a host snapshot cannot be reloaded"))

/-- The cache calls these two on its keys. -/
inductive Call where
  | ensureResident
  | offload
deriving DecidableEq, Repr

/-- A call that fails leaves the key as it was when the failure occurred. -/
def call (key : KeySwitchingKey) : Call → KeySwitchingKey × Option Failure
  | .ensureResident => key.ensureResident context
  | .offload => key.offload

def run (key : KeySwitchingKey) (calls : List Call) : KeySwitchingKey :=
  calls.foldl (fun key name => (key.call context name).1) key

end KeySwitchingKey

end Fideslib.KeySnapshot
