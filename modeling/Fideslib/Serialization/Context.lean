/-
This file translates the serialization of a context and its companion file.
-/

import Mathlib.Data.BitVec
import Fideslib.Library.TextStreams

namespace Fideslib.Serialization

open TextStreams

inductive BootstrapMode where
  | unconfigured
  | standard
  | stcFirst
  | fbt
  | fefbt
deriving DecidableEq, Repr

/-- A cast may give the distribution a value without a name. -/
inductive SecretKeyDist where
  | gaussian
  | uniformTernary
  | sparseTernary
  | sparseEncapsulated
  | unnamed (value : BitVec 32) (other : value.toInt < 0 ∨ 3 < value.toInt)
deriving DecidableEq

namespace SecretKeyDist

def toInt : SecretKeyDist → Int
  | gaussian => 0
  | uniformTernary => 1
  | sparseTernary => 2
  | sparseEncapsulated => 3
  | unnamed value _ => value.toInt

/-- This is the cast of a number that was read. -/
def ofBits (value : BitVec 32) : SecretKeyDist :=
  if other : value.toInt < 0 ∨ 3 < value.toInt then unnamed value other
  else if value.toInt = 0 then gaussian
  else if value.toInt = 1 then uniformTernary
  else if value.toInt = 2 then sparseTernary
  else sparseEncapsulated

end SecretKeyDist

/-- This record holds what the text of a context and its later calls need. -/
structure CryptoContextImpl (Cpu : Type) where
  cpu : Cpu
  devices : List (BitVec 32)
  -- The size of a vector is a size_t.
  devicesSize : devices.length < 2 ^ 64
  auto_load_plaintexts : Bool
  auto_load_ciphertexts : Bool
  multiplicative_depth : BitVec 32
  rotation_indexes : List (BitVec 32)
  slots_bootstrap : List (BitVec 32)
  keyDist : SecretKeyDist
  bootstrap_mode : BitVec 32 → Option BootstrapMode

variable {Cpu : Type}

def signed (values : List (BitVec 32)) : List Char := numbers (values.map BitVec.toInt)

def unsigned (values : List (BitVec 32)) : List Char :=
  numbers (values.map fun value => (value.toNat : Int))

def flag (value : Bool) : Int := if value then 1 else 0

/-- A line starts with its label and a blank. -/
def labelled (label : String) (text : List Char) : List Char := label.toList ++ ' ' :: text

def devData (obj : CryptoContextImpl Cpu) : List Char :=
  decimal obj.devices.length ++ (' ' :: '{' :: ' ' :: (signed obj.devices ++ ['}']))

def autoLoadData (obj : CryptoContextImpl Cpu) : List Char :=
  labelled "AutoLoadCiphertexts:" (decimal (flag obj.auto_load_ciphertexts))

def autoLoadPtData (obj : CryptoContextImpl Cpu) : List Char :=
  labelled "AutoLoadPlaintexts:" (decimal (flag obj.auto_load_plaintexts))

def rotationData (obj : CryptoContextImpl Cpu) : List Char :=
  labelled "RotationIndexes:" ('{' :: ' ' :: (signed obj.rotation_indexes ++ ['}']))

def keyDistData (obj : CryptoContextImpl Cpu) : List Char :=
  labelled "KeyDist:" (decimal obj.keyDist.toInt)

def bootstrapData (obj : CryptoContextImpl Cpu) : List Char :=
  labelled "BootstrapSlots:" ('{' :: ' ' :: (unsigned obj.slots_bootstrap ++ ['}']))

/-- The text has six lines. -/
def companion (obj : CryptoContextImpl Cpu) : List Char :=
  devData obj ++ '\n' :: (autoLoadData obj ++ '\n' :: (autoLoadPtData obj ++ '\n' ::
    (rotationData obj ++ '\n' :: (keyDistData obj ++ '\n' :: (bootstrapData obj ++ ['\n'])))))

/-- A local variable holds some value before it is read into. -/
structure Indeterminate where
  numDevices : BitVec 64
  devId : Nat → BitVec 32
  ciphertexts : BitVec 32
  plaintexts : BitVec 32
  index : BitVec 32
  dist : BitVec 32
  slot : BitVec 32

def readInt32 (old : BitVec 32) (s : Scanner) : BitVec 32 × Scanner :=
  let (value, s) := s.readInt (-2 ^ 31) (2 ^ 31 - 1) old.toInt
  (BitVec.ofInt 32 value, s)

def readUint32 (old : BitVec 32) (s : Scanner) : BitVec 32 × Scanner :=
  let (value, s) := s.readNat (2 ^ 32) old.toNat
  (BitVec.ofNat 32 value, s)

/-- The loop reads as many numbers as the count says, also after a failure. -/
def readDevices (left : Indeterminate) : Nat → Nat → Scanner → List (BitVec 32)
  | 0, _, _ => []
  | count + 1, i, s =>
      let (devId, s) := readInt32 (left.devId i) s
      devId :: readDevices left count (i + 1) s

theorem readDevices_length (left : Indeterminate) (count i : Nat) (s : Scanner) :
    (readDevices left count i s).length = count := by
  induction count generalizing i s with
  | zero => rfl
  | succ count inductionHypothesis =>
      change (readDevices left count (i + 1) (readInt32 (left.devId i) s).2).length + 1 = _
      rw [inductionHypothesis]

def numDevices (left : Indeterminate) (line : List Char) : Nat × Scanner :=
  Scanner.readNat (2 ^ 64) left.numDevices.toNat ⟨line, false⟩

def decodeDevices (left : Indeterminate) (line : List Char) (obj : CryptoContextImpl Cpu) :
    CryptoContextImpl Cpu :=
  { obj with
    devices := readDevices left (numDevices left line).1 0 (numDevices left line).2.readChar
    devicesSize := by
      rw [readDevices_length]
      exact readNat_lt left.numDevices.isLt _ }

def decodeAutoLoad (left : Indeterminate) (line : List Char) (obj : CryptoContextImpl Cpu) :
    CryptoContextImpl Cpu :=
  { obj with
    auto_load_ciphertexts :=
      (readInt32 left.ciphertexts (Scanner.readWord ⟨line, false⟩)).1 ≠ 0 }

def decodeAutoLoadPt (left : Indeterminate) (line : List Char) (obj : CryptoContextImpl Cpu) :
    CryptoContextImpl Cpu :=
  { obj with
    auto_load_plaintexts :=
      (readInt32 left.plaintexts (Scanner.readWord ⟨line, false⟩)).1 ≠ 0 }

def decodeRotations (left : Indeterminate) (line : List Char) (obj : CryptoContextImpl Cpu) :
    CryptoContextImpl Cpu :=
  { obj with
    rotation_indexes :=
      Scanner.readWhile (readInt32 left.index) (line.length + 1)
        (Scanner.readWord ⟨line, false⟩).readChar }

def decodeKeyDist (left : Indeterminate) (line : List Char) (obj : CryptoContextImpl Cpu) :
    CryptoContextImpl Cpu :=
  { obj with
    keyDist := SecretKeyDist.ofBits (readInt32 left.dist (Scanner.readWord ⟨line, false⟩)).1 }

def decodeSlots (left : Indeterminate) (line : List Char) (obj : CryptoContextImpl Cpu) :
    CryptoContextImpl Cpu :=
  { obj with
    slots_bootstrap :=
      Scanner.readWhile (readUint32 left.slot) (line.length + 1)
        (Scanner.readWord ⟨line, false⟩).readChar }

/-- Each step takes the next line, and a missing line leaves its fields alone. -/
def decodeLines (obj : CryptoContextImpl Cpu) (text : List Char) :
    List (List Char → CryptoContextImpl Cpu → CryptoContextImpl Cpu) → CryptoContextImpl Cpu
  | [] => obj
  | step :: steps =>
      match getline text with
      | none => obj
      | some (line, rest) => decodeLines (step line obj) rest steps

def decode (left : Indeterminate) (text : List Char) (obj : CryptoContextImpl Cpu) :
    CryptoContextImpl Cpu :=
  decodeLines obj text [decodeDevices left, decodeAutoLoad left, decodeAutoLoadPt left,
    decodeRotations left, decodeKeyDist left, decodeSlots left]

end Fideslib.Serialization

namespace Fideslib.Serialization

open TextStreams

/-- A file that is not there cannot be opened. -/
abbrev Files := String → Option (List Char)

inductive SerType where
  | binary
  | json
  | unsupported
deriving DecidableEq, Repr

/-- The archive belongs to the other library. Both calls tell whether they succeeded. -/
structure Archive (Cpu : Type) where
  SerializeToFile : Files → String → Cpu → SerType → Bool × Files
  DeserializeFromFile : Files → String → SerType → Option Cpu
  /-- This is the number of towers of the element parameters. -/
  towers : Cpu → Nat

/-- A file that was written and not changed since gives the context back. -/
def Archive.Restores {Cpu : Type} (archive : Archive Cpu) : Prop :=
  ∀ (files : Files) (filename : String) (cpu : Cpu) (sertype : SerType) (later : Files),
    (archive.SerializeToFile files filename cpu sertype).1 = true →
    later filename = (archive.SerializeToFile files filename cpu sertype).2 filename →
    archive.DeserializeFromFile later filename sertype = some cpu

variable {Cpu : Type} (archive : Archive Cpu)

def deviceFile (filename : String) : String := filename ++ ".dev"

/-- The companion file is written after the archive, when it can be opened. -/
def SerializeToFile (opens : String → Bool) (files : Files) (filename : String)
    (obj : CryptoContextImpl Cpu) (sertype : SerType) : Bool × Files :=
  if sertype = .unsupported then (false, files)
  else
    let (res, written) := archive.SerializeToFile files filename obj.cpu sertype
    if res = false then (false, written)
    else if opens (deviceFile filename) = false then (false, written)
    else (true, Function.update written (deviceFile filename) (some (companion obj)))

/-- The new context has the defaults of its class and no devices. -/
def gpuContext (context : Cpu) : CryptoContextImpl Cpu where
  cpu := context
  devices := []
  devicesSize := by decide
  auto_load_plaintexts := false
  auto_load_ciphertexts := true
  multiplicative_depth := BitVec.ofInt 32 ((archive.towers context : Int) - 1)
  rotation_indexes := []
  slots_bootstrap := []
  keyDist := .uniformTernary
  bootstrap_mode := fun _ => none

/-- The second result is what the caller's object is assigned, if it is assigned. -/
def DeserializeFromFile (left : Indeterminate) (files : Files) (filename : String)
    (sertype : SerType) : Bool × Option (CryptoContextImpl Cpu) :=
  if sertype = .unsupported then (false, none)
  else
    match archive.DeserializeFromFile files filename sertype with
    | none => (false, none)
    | some context =>
        match files (deviceFile filename) with
        | none => (false, some (gpuContext archive context))
        | some text => (true, some (decode left text (gpuContext archive context)))

def BootstrapModeName : BootstrapMode → String
  | .standard => "the standard bootstrap (EvalBootstrapSetup)"
  | .stcFirst => "the SlotsToCoeffs-first bootstrap (EvalBootstrapStCFirst)"
  | .fbt => "a reserved bootstrap mode"
  | .fefbt => "a reserved bootstrap mode"
  | .unconfigured => "no bootstrapping setup"

namespace CryptoContextImpl

def CheckBootstrapModeConflict (obj : CryptoContextImpl Cpu) (slot : BitVec 32)
    (mode : BootstrapMode) : Except String Unit :=
  match obj.bootstrap_mode slot with
  | none => .ok ()
  | some recorded =>
      if recorded ≠ .unconfigured ∧ recorded ≠ mode then
        .error ("Bootstrap setup conflict for slots=" ++ toString slot.toNat ++
          ": already configured for " ++ BootstrapModeName recorded ++
          "; cannot reconfigure it for " ++ BootstrapModeName mode ++
          ". The standard and SlotsToCoeffs-first bootstraps share one precomputation " ++
          "entry per slot count.")
      else .ok ()

def RequireBootstrapPrecomputation (obj : CryptoContextImpl Cpu) (slot : BitVec 32)
    (who : String) : Except String Unit :=
  if obj.bootstrap_mode slot = none ∨ obj.bootstrap_mode slot = some .unconfigured then
    .error (who ++ ": no bootstrapping precomputation for slots=" ++ toString slot.toNat ++
      " (run the matching setup before LoadContext).")
  else .ok ()

def CheckBootstrapMode (obj : CryptoContextImpl Cpu) (slot : BitVec 32)
    (allowed : List BootstrapMode) (who : String) : Except String Unit :=
  match obj.bootstrap_mode slot with
  | none | some .unconfigured =>
      .error (who ++ ": no bootstrapping precomputation for slots=" ++ toString slot.toNat ++
        " (run the matching setup before LoadContext).")
  | some recorded =>
      if recorded ∈ allowed then .ok ()
      else
        .error (who ++ ": slots=" ++ toString slot.toNat ++ " is configured for " ++
          BootstrapModeName recorded ++ ", which is incompatible with this evaluation.")

end CryptoContextImpl

/-- These calls consult the recorded modes. -/
inductive Call where
  | setup (slot : BitVec 32) (mode : BootstrapMode)
  | require (slot : BitVec 32) (who : String)
  | bootstrap (slot : BitVec 32) (allowed : List BootstrapMode) (who : String)

def Call.run (obj : CryptoContextImpl Cpu) : Call → Except String Unit
  | setup slot mode => obj.CheckBootstrapModeConflict slot mode
  | require slot who => obj.RequireBootstrapPrecomputation slot who
  | bootstrap slot allowed who => obj.CheckBootstrapMode slot allowed who

end Fideslib.Serialization
