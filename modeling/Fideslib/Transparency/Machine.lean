/-
This file translates the API calls that read plaintexts and lists what a caller observes.
-/

import Fideslib.CKKS.Plaintext
import Fideslib.Library.ThrowingCalls
import Fideslib.Residency.PlaintextCache

namespace Fideslib.Transparency

open Fideslib.CKKS Fideslib.Residency

variable {F : Type}

/-- This is what the host keeps of an encoded plaintext. -/
structure Encoding (F : Type) where
  elements : List (List Nat)
  moduli : List Nat
  scalingFactor : F
  noiseScaleDeg : Int
  slots : Int
  length : Nat
deriving DecidableEq

structure RawPlainText (F : Type) where
  numRes : Nat
  sub0 : List (List Nat)
  moduli : List Nat
  noise : F
  noiseLevel : Int
  slots : Int

/-- The length of the message is not read. -/
def getRawPlainText (pt : Encoding F) : RawPlainText F where
  numRes := pt.elements.length
  sub0 := pt.elements
  moduli := pt.moduli
  noise := pt.scalingFactor
  noiseLevel := pt.noiseScaleDeg
  slots := pt.slots

/-- A call throws a message of the interface or a failure of the device. -/
inductive Fault where
  | openFHE (message : String)
  | invalidArgument (message : String)
  | outOfRange
  | device (failure : Failure)
deriving DecidableEq

/-- An API ciphertext has a host copy and, while it is loaded, a device ciphertext. -/
structure CiphertextImpl (HostCiphertext : Type) (cc : ContextData F) where
  cpu : HostCiphertext
  gpu : Option (Ciphertext cc)

/-- A convolution reads its plaintexts, and an exception leaves some receiver. -/
structure Convolution (cc : ContextData F) where
  run : Ciphertext cc → List (Plaintext cc) → Except Failure (Ciphertext cc)
  interrupted : Ciphertext cc → List (Plaintext cc) → Ciphertext cc

/-- These are the operations of the interface that take plaintexts. -/
inductive Operation (cc : ContextData F) where
  | evalAdd
  | evalSub
  | evalPlaintextSub
  | evalMult
  | evalAddMutable
  | evalSubMutable
  | evalMultMutable
  | convolutionTransform (kernel : Convolution cc)

/-- These are the functions of OpenFHE and of the kernels that the calls use. -/
structure Functions (HostCiphertext : Type) (cc : ContextData F) where
  /-- A recursion of a device operation is cut here. -/
  calls : Nat
  loadConstant : List (List Nat) → List Nat → Int → Except String (RNSPoly cc)
  limbBytes : Plaintext cc → Nat
  upload : HostCiphertext → Ciphertext cc
  encrypt : Encoding F → HostCiphertext
  decrypt : CiphertextImpl HostCiphertext cc → Except Fault (HostCiphertext × Encoding F)
  /-- Without a device an operation may change its operands on the host. -/
  evaluate : Operation cc → HostCiphertext → List (Encoding F) →
    Except Fault (HostCiphertext × HostCiphertext × List (Encoding F))

section Device

variable [Mul F] [Div F] [One F] {cc : ContextData F} (calls : Nat)

/-- One plaintext is read. -/
def readOne (operate : Ciphertext cc → Plaintext cc → Except Failure (Ciphertext cc))
    (self : Ciphertext cc) : List (Plaintext cc) →
    Except Failure (Ciphertext cc × Option (Plaintext cc))
  | [b] => (operate self b).map fun result => (result, none)
  | _ => .error .exhausted

/-- One plaintext is read and may be adjusted in place. -/
def changeOne
    (operate : Ciphertext cc → Plaintext cc → Except Failure (Ciphertext cc × Plaintext cc))
    (self : Ciphertext cc) : List (Plaintext cc) →
    Except Failure (Ciphertext cc × Option (Plaintext cc))
  | [b] => (operate self b).map fun result => (result.1, some result.2)
  | _ => .error .exhausted

/-- The device operation returns its result, and a mutable one returns its plaintext too. -/
def Operation.onDevice : Operation cc → Ciphertext cc → List (Plaintext cc) →
    Except Failure (Ciphertext cc × Option (Plaintext cc))
  | .evalAdd => readOne (Ciphertext.addPt calls)
  | .evalSub => readOne (Ciphertext.subPt calls)
  | .evalPlaintextSub => readOne fun self b => Ciphertext.addPt calls self.negate b
  | .evalMult => readOne (Ciphertext.multPt calls)
  | .evalAddMutable => changeOne (Ciphertext.addPtMutable calls)
  | .evalSubMutable => changeOne (Ciphertext.subPtMutable calls)
  | .evalMultMutable => changeOne (Ciphertext.multPtMutable calls)
  | .convolutionTransform kernel => fun self pts =>
      (kernel.run self pts).map fun result => (result, none)

/-- An operation that cannot adjust its operands throws after the first change of the receiver. -/
def Operation.interrupted : Operation cc → Ciphertext cc → List (Plaintext cc) → Ciphertext cc
  | .evalAdd, self, [b] | .evalSub, self, [b] => self.stepDownTo b
  | .evalAddMutable, self, [b] | .evalSubMutable, self, [b] => self.stepDownTo b
  | .evalPlaintextSub, self, [b] => self.negate.stepDownTo b
  | .evalMultMutable, self, _ => self.reduceDegree
  | .convolutionTransform kernel, self, pts => kernel.interrupted self pts
  | _, self, _ => self

end Device

/-- The machine holds the plaintext cache, the limbs behind its handles and the ciphertexts. -/
structure Machine (HostCiphertext : Type) (cc : ContextData F) where
  devices : List Nat
  loaded : Bool
  nextGpuHandle : Handle
  plaintextSide : PlaintextCache (Encoding F)
  deviceValues : Handle → Option (Plaintext cc)
  ciphertexts : Name → Option (CiphertextImpl HostCiphertext cc)
  nextName : Name

variable {HostCiphertext : Type} {cc : ContextData F}

def Machine.initial (devices : List Nat) : Machine HostCiphertext cc :=
  ⟨devices, false, 1, PlaintextCache.initial, fun _ => none, fun _ => none, 0⟩

/-- A call changes the machine and returns or throws. -/
abbrev Api (HostCiphertext : Type) (cc : ContextData F) (Value : Type) :=
  EStateM Fault (Machine HostCiphertext cc) Value

variable (functions : Functions HostCiphertext cc)

/-- An outcome of a function is returned or thrown. -/
def lift {State Value : Type} : Except Fault Value → EStateM Fault State Value
  | .ok value => pure value
  | .error thrown => throw thrown

/-- A fresh upload of a host encoding builds a new device plaintext. -/
def uploadPlaintext (pt : Encoding F) : Except Fault (Plaintext cc) :=
  let raw := getRawPlainText pt
  match functions.loadConstant raw.sub0 raw.moduli raw.slots with
  | .error message => .error (.invalidArgument message)
  | .ok c0 => .ok ⟨c0, raw.noiseLevel, raw.noise, raw.slots⟩

def onPlaintexts (change : PlaintextCache (Encoding F) → PlaintextCache (Encoding F)) :
    Api HostCiphertext cc Unit :=
  modify fun machine => { machine with plaintextSide := change machine.plaintextSide }

/-- The registry keeps an object that it already has under the handle. -/
def Machine.registerDevicePlaintext (machine : Machine HostCiphertext cc) (name : Name)
    (pt : PlaintextImpl (Encoding F)) (value : Plaintext cc) (bytes : Nat) :
    Machine HostCiphertext cc :=
  let handle := machine.nextGpuHandle
  { machine with
    nextGpuHandle := handle + 1
    deviceValues := if (machine.plaintextSide.devicePlaintexts.lookup handle).isSome
      then machine.deviceValues
      else Function.update machine.deviceValues handle (some value)
    plaintextSide := (((machine.plaintextSide.registerDevicePlaintext handle bytes).setOwner name
      { pt with gpu := handle, loaded := true }).trackPlaintext handle name
      bytes).enforcePlaintextBudget handle }

def loadPlaintext (name : Name) : Api HostCiphertext cc Unit := do
  let machine ← get
  match machine.plaintextSide.owners.lookup name with
  | none => throw .outOfRange
  | some pt =>
      if pt.loaded ∨ machine.devices = [] then pure ()
      else if machine.loaded then do
        let value ← lift (uploadPlaintext functions pt.cpu)
        modify fun machine =>
          machine.registerDevicePlaintext name pt value (functions.limbBytes value)
      else throw (.openFHE "CryptoContext not loaded to any device")

/-- An operand of an operation fetches the device copy of a loaded plaintext. -/
def fetchPlaintext (name : Name) : Api HostCiphertext cc (Plaintext cc) := do
  let machine ← get
  match machine.plaintextSide.owners.lookup name with
  | none => throw .outOfRange
  | some pt =>
      match machine.plaintextSide.getDevicePlaintext pt.gpu, machine.deviceValues pt.gpu with
      | some side, some value => do
          modify fun machine => { machine with plaintextSide := side }
          pure value
      | _, _ => throw .outOfRange

/-- The operands of an operation are loaded and fetched one after the other. -/
def fetchPlaintexts : List Name → Api HostCiphertext cc (List (Plaintext cc))
  | [] => pure []
  | name :: rest => do
      loadPlaintext functions name
      let value ← fetchPlaintext name
      let values ← fetchPlaintexts rest
      pure (value :: values)

def setCiphertext (name : Name) (ct : CiphertextImpl HostCiphertext cc) :
    Api HostCiphertext cc Unit :=
  modify fun machine =>
    { machine with ciphertexts := Function.update machine.ciphertexts name (some ct) }

/-- A device ciphertext that is registered takes the next handle. -/
def registerDeviceCiphertext : Api HostCiphertext cc Unit :=
  modify fun machine => { machine with nextGpuHandle := machine.nextGpuHandle + 1 }

/-- The receiver is uploaded unless it is loaded. -/
def loadCiphertext (name : Name) :
    Api HostCiphertext cc (CiphertextImpl HostCiphertext cc × Ciphertext cc) := do
  let machine ← get
  match machine.ciphertexts name with
  | none => throw .outOfRange
  | some ct =>
      match ct.gpu with
      | some device => pure (ct, device)
      | none =>
          if machine.loaded then do
            registerDeviceCiphertext
            setCiphertext name { ct with gpu := some (functions.upload ct.cpu) }
            pure ({ ct with gpu := some (functions.upload ct.cpu) }, functions.upload ct.cpu)
          else throw (.openFHE "CryptoContext not loaded to any device")

/-- A mutable operation leaves its plaintext behind the handle of the owner. -/
def Machine.storePlaintext (machine : Machine HostCiphertext cc) :
    List Name → Option (Plaintext cc) → Machine HostCiphertext cc
  | [name], some value =>
      match machine.plaintextSide.owners.lookup name with
      | none => machine
      | some pt => { machine with
          deviceValues := Function.update machine.deviceValues pt.gpu (some value) }
  | _, _ => machine

/-- The host encodings of these plaintexts are read. -/
def hostEncodings : List Name → Api HostCiphertext cc (List (Encoding F))
  | [] => pure []
  | name :: rest => do
      let machine ← get
      match machine.plaintextSide.owners.lookup name with
      | none => throw .outOfRange
      | some pt => do
          let encodings ← hostEncodings rest
          pure (pt.cpu :: encodings)

/-- The host encoding of a live plaintext is replaced. -/
def setEncoding (name : Name) (value : Encoding F) (cache : PlaintextCache (Encoding F)) :
    PlaintextCache (Encoding F) :=
  match cache.owners.lookup name with
  | none => cache
  | some pt => cache.setOwner name { pt with cpu := value }

/-- The host operation may replace the encodings of its plaintexts. -/
def setEncodings : List Name → List (Encoding F) → PlaintextCache (Encoding F) →
    PlaintextCache (Encoding F)
  | name :: names, value :: values, cache => setEncodings names values (setEncoding name value cache)
  | _, _, cache => cache

/-- Without a device the operation runs on the host. -/
def evaluateOnHost (operation : Operation cc) (ct : Name) (pts : List Name) (result : Option Name) :
    Api HostCiphertext cc Unit := do
  let machine ← get
  match machine.ciphertexts ct with
  | none => throw .outOfRange
  | some receiver => do
      let encodings ← hostEncodings pts
      let (value, changed, adjusted) ← lift (functions.evaluate operation receiver.cpu encodings)
      onPlaintexts (setEncodings pts adjusted)
      setCiphertext ct { receiver with cpu := changed }
      setCiphertext (result.getD ct) ⟨value, none⟩

variable [Mul F] [Div F] [One F]

/-- An exception leaves a receiver only to an operation in place. -/
def finish (operation : Operation cc) (ct : Name) (pts : List Name) (result : Option Name)
    (receiver : CiphertextImpl HostCiphertext cc) (device : Ciphertext cc)
    (operands : List (Plaintext cc)) :
    Except Failure (Ciphertext cc × Option (Plaintext cc)) → Api HostCiphertext cc Unit
  | .ok (value, adjusted) => do
      modify fun machine => machine.storePlaintext pts adjusted
      setCiphertext (result.getD ct) { receiver with gpu := some value }
  | .error failure => do
      if result.isNone then
        setCiphertext ct { receiver with gpu := some (operation.interrupted device operands) }
      throw (.device failure)

/-- An operation holds the cache while it loads, fetches and computes. A result other than the
receiver starts as a copy of it. -/
def evaluate (operation : Operation cc) (ct : Name) (pts : List Name) (result : Option Name) :
    Api HostCiphertext cc Unit :=
  ThrowingCalls.withScope
    (fun machine => { machine with plaintextSide := machine.plaintextSide.openHold })
    (fun machine => { machine with plaintextSide := machine.plaintextSide.closeHold }) do
      let machine ← get
      if machine.devices = [] then evaluateOnHost functions operation ct pts result
      else do
        let (receiver, device) ← loadCiphertext functions ct
        let operands ← fetchPlaintexts functions pts
        if result.isSome then registerDeviceCiphertext
        finish operation ct pts result receiver device operands
          (operation.onDevice functions.calls device operands)

end Fideslib.Transparency

namespace Fideslib.Transparency

open Fideslib.CKKS Fideslib.Residency

variable {F : Type} {HostCiphertext : Type} {cc : ContextData F}
  (functions : Functions HostCiphertext cc)

def setDevices (devices : List Nat) : Api HostCiphertext cc Unit := do
  let machine ← get
  if machine.loaded then throw (.openFHE "SetDevices must be called before LoadContext")
  else modify fun machine => { machine with devices := devices }

def loadContext : Api HostCiphertext cc Unit :=
  modify fun machine =>
    { machine with loaded := machine.loaded || decide (machine.devices ≠ []) }

/-- A new plaintext takes the next address. -/
def newPlaintext (pt : PlaintextImpl (Encoding F)) : Api HostCiphertext cc Unit :=
  modify fun machine =>
    { machine with
      plaintextSide := machine.plaintextSide.setOwner machine.nextName pt
      nextName := machine.nextName + 1 }

def makePlaintext (value : Encoding F) : Api HostCiphertext cc Unit :=
  newPlaintext ⟨value, 0, false, true⟩

def pinPlaintext (name : Name) : Api HostCiphertext cc Unit :=
  ThrowingCalls.withScope
    (fun machine => { machine with plaintextSide := machine.plaintextSide.openHold })
    (fun machine => { machine with plaintextSide := machine.plaintextSide.closeHold }) do
      loadPlaintext functions name
      onPlaintexts fun side =>
        match side.owners.lookup name with
        | none => side
        | some pt =>
            if pt.loaded then { side with plaintextPinned := insert pt.gpu side.plaintextPinned }
            else side

def unpinPlaintext (name : Name) : Api HostCiphertext cc Unit :=
  ThrowingCalls.withScope
    (fun machine => { machine with plaintextSide := machine.plaintextSide.openHold })
    (fun machine => { machine with plaintextSide := machine.plaintextSide.closeHold })
    (onPlaintexts fun side =>
      match side.owners.lookup name with
      | none => side
      | some pt =>
          if pt.gpu ≠ 0 then
            { side with
              plaintextPinned := side.plaintextPinned.erase pt.gpu }.enforcePlaintextBudget 0
          else side)

/-- The setters of a plaintext change its host encoding and nothing on the device. -/
def changeEncoding (name : Name) (change : Encoding F → Encoding F) : Api HostCiphertext cc Unit := do
  let machine ← get
  match machine.plaintextSide.owners.lookup name with
  | none => throw .outOfRange
  | some pt => onPlaintexts (setEncoding name (change pt.cpu))

def setSlots (name : Name) (slots : Int) : Api HostCiphertext cc Unit :=
  changeEncoding name fun value => { value with slots := slots }

def setLength (name : Name) (length : Nat) : Api HostCiphertext cc Unit :=
  changeEncoding name fun value => { value with length := length }

def destroyPlaintext (name : Name) : Api HostCiphertext cc Unit :=
  onPlaintexts fun side => side.destroyPlaintext name

/-- An encryption reads the host encoding. -/
def encrypt (pt result : Name) : Api HostCiphertext cc Unit := do
  let machine ← get
  match machine.plaintextSide.owners.lookup pt with
  | none => throw .outOfRange
  | some owner => setCiphertext result ⟨functions.encrypt owner.cpu, none⟩

/-- The decrypted value goes into an existing plaintext. -/
def decryptInto (target : Name) (value : Encoding F) : Api HostCiphertext cc Unit := do
  let machine ← get
  match machine.plaintextSide.owners.lookup target with
  | none => throw .outOfRange
  | some pt =>
      if pt.loaded ∧ machine.devices ≠ [] then
        throw (.openFHE
          "Inconsistent state: Plaintext is marked as loaded but no devices are available")
      else if pt.loaded then do
        onPlaintexts fun side => (side.evictDevicePlaintext pt.gpu).2
        if (machine.plaintextSide.evictDevicePlaintext pt.gpu).1 then
          onPlaintexts fun side =>
            side.setOwner target { pt with cpu := value, loaded := false, gpu := 0 }
        else throw (.openFHE "Plaintext eviction error: could not evict Plaintext from device")
      else
        onPlaintexts fun side =>
          side.setOwner target { pt with cpu := value, loaded := false, gpu := 0 }

/-- A decryption refreshes the host copy and fills a given or a new plaintext. -/
def decrypt (ct : Name) (target : Option Name) : Api HostCiphertext cc Unit := do
  let machine ← get
  match machine.ciphertexts ct with
  | none => throw .outOfRange
  | some receiver => do
      let (cpu, value) ← lift (functions.decrypt receiver)
      setCiphertext ct { receiver with cpu := cpu }
      match target with
      | some pt => decryptInto pt value
      | none => newPlaintext ⟨value, 0, false, false⟩

/-- A call that takes no plaintext acts on the ciphertexts and may register some of them. -/
structure CiphertextCall (HostCiphertext : Type) (cc : ContextData F) where
  effect : List Nat → Bool → (Name → Option (CiphertextImpl HostCiphertext cc)) →
    Except Fault Unit × (Name → Option (CiphertextImpl HostCiphertext cc))
  registered : Nat

def CiphertextCall.perform (call : CiphertextCall HostCiphertext cc) :
    Api HostCiphertext cc Unit := do
  let machine ← get
  modify fun machine =>
    { machine with
      ciphertexts := (call.effect machine.devices machine.loaded machine.ciphertexts).2
      nextGpuHandle := machine.nextGpuHandle + UInt32.ofNat call.registered }
  lift (call.effect machine.devices machine.loaded machine.ciphertexts).1

/-- These are the calls of a program and, at the end, those that only move the cache. -/
inductive Call (HostCiphertext : Type) (cc : ContextData F) where
  | setDevices (devices : List Nat)
  | loadContext
  | makePlaintext (value : Encoding F)
  | loadPlaintext (name : Name)
  | pinPlaintext (name : Name)
  | unpinPlaintext (name : Name)
  | setSlots (name : Name) (slots : Int)
  | setLength (name : Name) (length : Nat)
  | destroyPlaintext (name : Name)
  | encrypt (pt result : Name)
  | decrypt (ct : Name) (target : Option Name)
  | evaluate (operation : Operation cc) (ct : Name) (pts : List Name) (result : Option Name)
  | onCiphertexts (call : CiphertextCall HostCiphertext cc)
  | setPlaintextCache (bytes : Nat)
  | offloadPlaintexts
  | offloadPlaintextHandle (handle : Handle)

/-- These calls may be inserted anywhere, and the last one also stands for automatic evictions. -/
def Call.isCache : Call HostCiphertext cc → Bool
  | .setPlaintextCache _ | .offloadPlaintexts | .offloadPlaintextHandle _ => true
  | _ => false

variable [Mul F] [Div F] [One F]

def Call.perform : Call HostCiphertext cc → Api HostCiphertext cc Unit
  | .setDevices devices => Transparency.setDevices devices
  | .loadContext => Transparency.loadContext
  | .makePlaintext value => Transparency.makePlaintext value
  | .loadPlaintext name => Transparency.loadPlaintext functions name
  | .pinPlaintext name => Transparency.pinPlaintext functions name
  | .unpinPlaintext name => Transparency.unpinPlaintext name
  | .setSlots name slots => Transparency.setSlots name slots
  | .setLength name length => Transparency.setLength name length
  | .destroyPlaintext name => Transparency.destroyPlaintext name
  | .encrypt pt result => Transparency.encrypt functions pt result
  | .decrypt ct target => Transparency.decrypt functions ct target
  | .evaluate operation ct pts result => Transparency.evaluate functions operation ct pts result
  | .onCiphertexts call => call.perform
  | .setPlaintextCache bytes => onPlaintexts fun side => side.setPlaintextCache bytes
  | .offloadPlaintexts => onPlaintexts fun side => side.offloadPlaintexts
  | .offloadPlaintextHandle handle =>
      onPlaintexts fun side => (side.offloadPlaintextHandle handle).2

def performAll (calls : List (Call HostCiphertext cc)) (machine : Machine HostCiphertext cc) :
    Machine HostCiphertext cc :=
  calls.foldl (fun machine call => ThrowingCalls.final (call.perform functions) machine) machine

end Fideslib.Transparency
