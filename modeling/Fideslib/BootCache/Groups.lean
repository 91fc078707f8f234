/-
This file translates a group of bootstrap plaintexts, its host snapshot and its reload.
-/

import Fideslib.Transfer.RoundTrip

namespace Fideslib.BootCache

open Transfer

/-- The bootstrap cache reports these failures by an exception. -/
inductive BootError where
  | invalidArgument (message : String)
  | runtimeError (message : String)
  | outOfRange
deriving DecidableEq, Repr

/-- A limb is a list of words. -/
abbrev Limb := List Nat

/-- The host data of a plaintext has one row for every modulus. -/
structure RawPlainText (Factor : Type) where
  sub0 : List Limb
  moduli : List Nat
  noise : Factor
  slots : Nat
  noiseLevel : Int

structure Plaintext (Factor : Type) where
  c0 : RnsPoly Limb
  noiseFactor : Factor
  noiseLevel : Int
  slots : Nat

/-- An entry says where the rows of one plaintext begin. -/
structure Entry (Factor : Type) where
  firstRow : Nat
  moduli : List Nat
  noise : Factor
  noiseLevel : Int
  slots : Nat

/-- The snapshot keeps the rows of all plaintexts of a group back to back. -/
structure BootSnapshot (Factor : Type) where
  entries : List (Entry Factor) := []
  buffer : List Limb := []

variable {Factor : Type}

/-- A new polynomial and a freed one hold no limb. -/
def blank : RnsPoly Limb := ⟨-1, [], [], false⟩

/-- A copy replaces the first words of a limb. -/
def overwrite (n : Nat) (row old : Limb) : Limb := row.take n ++ old.drop n

/-- A special limb takes the last row of its modulus. -/
def loadSpecial (special : List Nat) (rows : List (Nat × Limb)) (n : Nat) (old : List Limb) :
    List Limb :=
  special.mapIdx fun place prime =>
    match rows.reverse.find? fun row => row.1 = prime with
    | some row => overwrite n row.2 (old.getD place [])
    | none => old.getD place []

/-- A row of the regular primes goes to its place, and any other row goes to the special limb of
its modulus. -/
def loadConstant (scheme : Scheme) (data : List Limb) (n : Nat) (moduli : List Nat) (slots : Nat)
    (poly : RnsPoly Limb) : Except BootError (RnsPoly Limb) :=
  if n ≠ 2 * slots ∨ data.length ≠ moduli.length then
    .error (.invalidArgument "loadConstant: expected compressed rows of 2*slots words")
  else
    let regular := RnsPoly.limbsize scheme moduli data.length
    .ok {
      level := (regular : Int) - 1
      limb := (data.take regular).mapIdx (fun place row =>
        overwrite n row (poly.limb.getD place [])) ++ poly.limb.drop regular
      specialLimb := if regular < data.length then
          loadSpecial scheme.special ((moduli.zip data).drop regular) n poly.specialLimb
        else poly.specialLimb
      modUp := poly.modUp || regular < data.length }

/-- A sparse row keeps one word of every stride. -/
def compressRow (slots : Nat) (row : Limb) : Limb :=
  if 2 * slots < row.length then
    (List.range (2 * slots)).map fun place => row.getD (place * (row.length / (2 * slots))) 0
  else row

def loadConstantRows (scheme : Scheme) (data : List Limb) (moduli : List Nat) (slots : Nat)
    (poly : RnsPoly Limb) : Except BootError (RnsPoly Limb) :=
  let compressed := data.map (compressRow slots)
  if compressed.any fun row => row.length ≠ 2 * slots then
    .error (.invalidArgument "loadConstant: invalid compressed limb size")
  else loadConstant scheme compressed (2 * slots) moduli slots poly

/-- A new plaintext is loaded from its host data. -/
def Plaintext.load (scheme : Scheme) (raw : RawPlainText Factor) :
    Except BootError (Plaintext Factor) :=
  (loadConstantRows scheme raw.sub0 raw.moduli raw.slots blank).map fun c0 =>
    ⟨c0, raw.noise, raw.noiseLevel, raw.slots⟩

def Plaintext.loadAll (scheme : Scheme) :
    List (RawPlainText Factor) → Except BootError (List (Plaintext Factor))
  | [] => .ok []
  | raw :: rest => do
      let pt ← Plaintext.load scheme raw
      let pts ← loadAll scheme rest
      return pt :: pts

namespace BootSnapshot

/-- The first loop records where the rows of each plaintext begin. -/
def entriesFrom : Nat → List (RawPlainText Factor) → Except BootError (List (Entry Factor))
  | _, [] => .ok []
  | firstRow, raw :: rest =>
      if raw.moduli.length ≠ raw.sub0.length then
        .error (.invalidArgument s!"BootSnapshot: plaintext with {raw.sub0.length} limbs but {raw.moduli.length} moduli")
      else
        (entriesFrom (firstRow + raw.sub0.length) rest).map fun entries =>
          ⟨firstRow, raw.moduli, raw.noise, raw.noiseLevel, raw.slots⟩ :: entries

/-- The second loop decimates the rows, and every row is as wide as the widest one. -/
def rowsFrom (n rowWords : Nat) : List (RawPlainText Factor) → Except BootError (List Limb)
  | [] => .ok []
  | raw :: rest =>
      let words := 2 * raw.slots
      if words = 0 ∨ n < words ∨ n % words ≠ 0 then
        .error (.invalidArgument "BootSnapshot: invalid slot count")
      else if raw.sub0.any fun src => src.length ≠ n then
        .error (.invalidArgument "BootSnapshot: invalid limb size")
      else
        (rowsFrom n rowWords rest).map fun rows =>
          raw.sub0.map (fun src => (List.range words).map (fun j => src.getD (j * (n / words)) 0) ++
            List.replicate (rowWords - words) 0) ++ rows

def rowWords (raws : List (RawPlainText Factor)) : Nat :=
  raws.foldl (fun words raw => max words (2 * raw.slots)) 0

def make (raws : List (RawPlainText Factor)) (n : Nat) : Except BootError (BootSnapshot Factor) := do
  let entries ← entriesFrom 0 raws
  let buffer ← rowsFrom n (rowWords raws) raws
  return ⟨entries, buffer⟩

/-- These rows belong to one entry. -/
def rows (snapshot : BootSnapshot Factor) (entry : Entry Factor) : List Limb :=
  (List.range entry.moduli.length).map fun row => snapshot.buffer.getD (entry.firstRow + row) []

/-- Every plaintext is loaded from the entry of its place. -/
def reload (scheme : Scheme) (snapshot : BootSnapshot Factor) :
    Nat → List (Plaintext Factor) → Except BootError (List (Plaintext Factor))
  | _, [] => .ok []
  | place, pt :: rest =>
      match snapshot.entries[place]? with
      | none => .error .outOfRange
      | some entry => do
          let c0 ← loadConstant scheme (snapshot.rows entry) (2 * entry.slots) entry.moduli
            entry.slots pt.c0
          let pts ← reload scheme snapshot (place + 1) rest
          return ⟨c0, entry.noise, entry.noiseLevel, entry.slots⟩ :: pts

end BootSnapshot

/-- This plaintext gives its limbs back. -/
def Plaintext.free (pt : Plaintext Factor) : Plaintext Factor :=
  { pt with c0 := { pt.c0 with level := -1, limb := [], specialLimb := [], modUp := false } }

/-- This is the state of a group in the cache. -/
structure BootCacheBlock (Factor : Type) where
  snapshot : BootSnapshot Factor := {}
  resident : Bool := true
  bytes : Nat := 0
  lastUse : Nat := 0

def BootCacheBlock.hasSnapshot (block : BootCacheBlock Factor) : Bool :=
  !block.snapshot.entries.isEmpty

/-- A group consists of the plaintexts of one stage and their block. -/
structure Group (Factor : Type) where
  block : BootCacheBlock Factor
  pts : List (Plaintext Factor)

/-- The group frees its plaintexts and is not resident afterwards. -/
def Group.free (group : Group Factor) : Group Factor where
  block := { group.block with resident := false }
  pts := group.pts.map Plaintext.free

section Contents

variable (scheme : Scheme)

/-- These are the moduli of the limbs that a polynomial holds. -/
def basisOf (poly : RnsPoly Limb) : List Nat :=
  scheme.chain.take (poly.level + 1).toNat ++ if poly.modUp then scheme.special else []

/-- These are the limbs that a polynomial holds. -/
def limbsOf (poly : RnsPoly Limb) : List Limb :=
  poly.limb ++ if poly.modUp then poly.specialLimb else []

/-- A plaintext has exactly the limbs and the metadata of an entry. -/
structure Plaintext.Holds (snapshot : BootSnapshot Factor) (entry : Entry Factor)
    (pt : Plaintext Factor) : Prop where
  moduli : basisOf scheme pt.c0 = entry.moduli
  limbs : limbsOf pt.c0 = (snapshot.rows entry).map (List.take (2 * entry.slots))
  noiseFactor : pt.noiseFactor = entry.noise
  noiseLevel : pt.noiseLevel = entry.noiseLevel
  slots : pt.slots = entry.slots

/-- A group has exactly the limbs and the metadata of its snapshot. -/
structure Recorded (snapshot : BootSnapshot Factor) (pts : List (Plaintext Factor)) : Prop where
  size : snapshot.entries.length = pts.length
  plaintexts : ∀ (place : Nat) (entry : Entry Factor) (pt : Plaintext Factor),
    snapshot.entries[place]? = some entry → pts[place]? = some pt → pt.Holds scheme snapshot entry

end Contents

/-- The rows of a raw plaintext follow the regular primes and the special primes of a scheme. -/
def RawPlainText.InBasis (scheme : Scheme) (raw : RawPlainText Factor) : Prop :=
  ∃ regular ≤ scheme.chain.length, ∃ extended, raw.moduli = scheme.basis regular extended

end Fideslib.BootCache
