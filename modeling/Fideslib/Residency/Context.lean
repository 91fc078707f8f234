/-
This file translates the API calls that create, move and release device objects.
-/

import Fideslib.Library.ThrowingCalls
import Fideslib.Library.Run
import Fideslib.Residency.PlaintextCache

namespace Fideslib.Residency

/-- An API ciphertext knows the handle of its device copy. -/
structure CiphertextImpl where
  gpu : Handle
  loaded : Bool
  deriving DecidableEq

/-- A context holds both caches, the shared handle counter and the live API objects. -/
structure Context (Encoding : Type) where
  devices : List Nat
  loaded : Bool
  nextGpuHandle : Handle
  ciphertextSide : CiphertextCache
  plaintextSide : PlaintextCache Encoding
  ciphertexts : AList fun _ : Name => CiphertextImpl
  -- Every new object gets an address that no object had before.
  nextName : Name

variable {Encoding : Type}

/-- A new context has its devices but is not loaded to them. -/
def Context.initial (devices : List Nat) : Context Encoding :=
  ⟨devices, false, 1, CiphertextCache.initial, PlaintextCache.initial, ∅, 0⟩

/-- A call changes the context and returns or throws a message. -/
abbrev Api (Encoding Value : Type) := EStateM String (Context Encoding) Value

def onCiphertexts (change : CiphertextCache → CiphertextCache) : Api Encoding Unit :=
  modify fun context => { context with ciphertextSide := change context.ciphertextSide }

def onPlaintexts (change : PlaintextCache Encoding → PlaintextCache Encoding) : Api Encoding Unit :=
  modify fun context => { context with plaintextSide := change context.plaintextSide }

def setCiphertext (name : Name) (ct : CiphertextImpl) : Api Encoding Unit :=
  modify fun context => { context with ciphertexts := context.ciphertexts.insert name ct }

/-- A new ciphertext takes the next address. -/
def newCiphertext (ct : CiphertextImpl) : Api Encoding Unit :=
  modify fun context =>
    { context with
      ciphertexts := context.ciphertexts.insert context.nextName ct
      nextName := context.nextName + 1 }

/-- A new plaintext takes the next address. -/
def newPlaintext (pt : PlaintextImpl Encoding) : Api Encoding Unit :=
  modify fun context =>
    { context with
      plaintextSide := context.plaintextSide.setOwner context.nextName pt
      nextName := context.nextName + 1 }

def setDevices (devices : List Nat) : Api Encoding Unit := do
  let context ← get
  if context.loaded then throw "SetDevices must be called before LoadContext"
  else modify fun context => { context with devices := devices }

def loadContext : Api Encoding Unit :=
  modify fun context =>
    if context.loaded ∨ context.devices = [] then context else { context with loaded := true }

def registerDeviceCiphertext (footprint : Footprint) : Api Encoding Handle := do
  let context ← get
  if context.devices = [] then throw "No devices available to register ciphertext"
  else do
    modify fun context =>
      { context with
        nextGpuHandle := context.nextGpuHandle + 1
        ciphertextSide := context.ciphertextSide.registerDeviceCiphertext context.nextGpuHandle
          ⟨footprint, false⟩ }
    pure context.nextGpuHandle

/-- A handle that is not in the registry lets the map's accessor throw. -/
def getDeviceCiphertext (handle : Handle) : Api Encoding DeviceCiphertext := do
  let context ← get
  match context.ciphertextSide.getDeviceCiphertext handle with
  | none => throw "unordered_map::at"
  | some (device, side) => do
      modify fun context => { context with ciphertextSide := side }
      pure device

/-- The level of a loaded ciphertext is read from its device copy. -/
def getLevel (ct : CiphertextImpl) : Api Encoding Unit :=
  if ct.loaded then do
    let _ ← getDeviceCiphertext ct.gpu
    pure ()
  else pure ()

/-- The upload measures the footprint of the new device ciphertext. -/
def loadCiphertext (name : Name) (upload : Footprint) : Api Encoding Unit := do
  let context ← get
  if context.devices = [] then pure ()
  else match context.ciphertexts.lookup name with
    | none => pure ()
    | some ct =>
        if ct.loaded then
          if ct.gpu ≠ 0 then
            onCiphertexts fun side =>
              (side.reloadCiphertext ct.gpu).enforceCiphertextBudget ct.gpu
          else pure ()
        else if context.loaded then do
          let handle ← registerDeviceCiphertext upload
          setCiphertext name ⟨handle, true⟩
          getLevel ⟨handle, true⟩
          onCiphertexts fun side => side.enforceCiphertextBudget handle
        else throw "CryptoContext not loaded to any device"

/-- The host copy of a loaded ciphertext is refreshed from the device. -/
def ensureUpToDateCpuCopy (ct : CiphertextImpl) : Api Encoding Unit :=
  if ct.loaded then do
    let _ ← getDeviceCiphertext ct.gpu
    pure ()
  else pure ()

def unloadCiphertext (name : Name) : Api Encoding Unit := do
  let context ← get
  match context.ciphertexts.lookup name with
  | none => pure ()
  | some ct =>
      if ct.loaded then do
        ensureUpToDateCpuCopy ct
        let fetched ← get
        modify fun context =>
          { context with ciphertextSide := (context.ciphertextSide.evictDeviceCiphertext ct.gpu).2 }
        if (fetched.ciphertextSide.evictDeviceCiphertext ct.gpu).1 then setCiphertext name ⟨0, false⟩
        else throw "Ciphertext eviction error: could not evict Ciphertext from device"
      else pure ()

/-- The copy has its own limbs in the basis of the original. -/
def copyDeviceCiphertext (ct : CiphertextImpl) (limbBytes reloadBytes : Nat) :
    Api Encoding Handle :=
  if ct.loaded then do
    let device ← getDeviceCiphertext ct.gpu
    registerDeviceCiphertext ⟨limbBytes, reloadBytes, device.c0ModUp, device.c1ModUp⟩
  else throw "Ciphertext not loaded to any device"

/-- The copy constructor copies the device object of a loaded ciphertext. -/
def cloneCiphertext (source : Name) (limbBytes reloadBytes : Nat) : Api Encoding Unit := do
  let context ← get
  match context.ciphertexts.lookup source with
  | none => pure ()
  | some other =>
      if other.loaded then do
        let handle ← copyDeviceCiphertext other limbBytes reloadBytes
        newCiphertext ⟨handle, true⟩
      else newCiphertext ⟨0, false⟩

def pinCiphertext (name : Name) (upload : Footprint) : Api Encoding Unit := do
  loadCiphertext name upload
  let context ← get
  match context.ciphertexts.lookup name with
  | none => pure ()
  | some ct =>
      if ct.loaded ∧ ct.gpu ≠ 0 then
        onCiphertexts fun side =>
          let reloaded := side.reloadCiphertext ct.gpu
          { reloaded with ciphertextPinned := insert ct.gpu reloaded.ciphertextPinned }
      else pure ()

def unpinCiphertext (name : Name) : Api Encoding Unit := do
  let context ← get
  match context.ciphertexts.lookup name with
  | none => pure ()
  | some ct =>
      if ct.gpu ≠ 0 then
        onCiphertexts fun side =>
          { side with
            ciphertextPinned := side.ciphertextPinned.erase ct.gpu }.enforceCiphertextBudget 0
      else pure ()

/-- A getter or an operand of an operation fetches the device copy of a loaded ciphertext. -/
def fetchCiphertext (name : Name) : Api Encoding Unit := do
  let context ← get
  match context.ciphertexts.lookup name with
  | none => pure ()
  | some ct => getLevel ct

/-- An operation fetches the device copy and its kernels change the limbs. -/
def computeCiphertext (name : Name) (footprint : Footprint) : Api Encoding Unit := do
  let context ← get
  match context.ciphertexts.lookup name with
  | none => pure ()
  | some ct =>
      if ct.loaded then do
        let _ ← getDeviceCiphertext ct.gpu
        onCiphertexts fun side => side.compute ct.gpu footprint
      else pure ()

/-- The destructor evicts the device copy of a loaded ciphertext. -/
def destroyCiphertext (name : Name) : Api Encoding Unit := do
  let context ← get
  match context.ciphertexts.lookup name with
  | none => pure ()
  | some ct =>
      modify fun context =>
        { context with
          ciphertextSide := if ct.loaded ∧ ct.gpu ≠ 0 then
              (context.ciphertextSide.evictDeviceCiphertext ct.gpu).2
            else context.ciphertextSide
          ciphertexts := context.ciphertexts.erase name }

/-- A deserialization only overwrites the fields of the object. -/
def deserializeCiphertext (name : Name) : Api Encoding Unit := do
  let context ← get
  match context.ciphertexts.lookup name with
  | none => pure ()
  | some _ => setCiphertext name ⟨0, false⟩

/-- A new plaintext is encoded on the host and knows its context. -/
def makePlaintext (value : Encoding) : Api Encoding Unit :=
  newPlaintext ⟨value, 0, false, true⟩

def registerDevicePlaintext (bytes : Nat) : Api Encoding Handle := do
  let context ← get
  if context.devices = [] then throw "No devices available to register plaintext"
  else do
    modify fun context =>
      { context with
        nextGpuHandle := context.nextGpuHandle + 1
        plaintextSide := context.plaintextSide.registerDevicePlaintext context.nextGpuHandle bytes }
    pure context.nextGpuHandle

def loadPlaintext (name : Name) (bytes : Nat) : Api Encoding Unit := do
  let context ← get
  match context.plaintextSide.owners.lookup name with
  | none => pure ()
  | some pt =>
      if pt.loaded ∨ context.devices = [] then pure ()
      else if context.loaded then do
        let handle ← registerDevicePlaintext bytes
        onPlaintexts fun side =>
          ((side.setOwner name { pt with gpu := handle, loaded := true }).trackPlaintext handle name
            bytes).enforcePlaintextBudget handle
      else throw "CryptoContext not loaded to any device"

/-- An operand of an operation fetches the device copy of a loaded plaintext. -/
def fetchPlaintext (name : Name) : Api Encoding Unit := do
  let context ← get
  match context.plaintextSide.owners.lookup name with
  | none => pure ()
  | some pt =>
      match context.plaintextSide.getDevicePlaintext pt.gpu with
      | none => throw "unordered_map::at"
      | some side => modify fun context => { context with plaintextSide := side }

/-- The guard's destructor runs whether the body returns or throws. -/
def plaintextCacheHold (body : Api Encoding Unit) : Api Encoding Unit :=
  ThrowingCalls.withScope
    (fun context => { context with plaintextSide := context.plaintextSide.openHold })
    (fun context => { context with plaintextSide := context.plaintextSide.closeHold }) body

def pinPlaintext (name : Name) (bytes : Nat) : Api Encoding Unit :=
  plaintextCacheHold do
    loadPlaintext name bytes
    let context ← get
    match context.plaintextSide.owners.lookup name with
    | none => pure ()
    | some pt =>
        if pt.loaded then
          onPlaintexts fun side =>
            { side with plaintextPinned := insert pt.gpu side.plaintextPinned }
        else pure ()

def unpinPlaintext (name : Name) : Api Encoding Unit :=
  plaintextCacheHold do
    let context ← get
    match context.plaintextSide.owners.lookup name with
    | none => pure ()
    | some pt =>
        if pt.gpu ≠ 0 then
          onPlaintexts fun side =>
            { side with
              plaintextPinned := side.plaintextPinned.erase pt.gpu }.enforcePlaintextBudget 0
        else pure ()

/-- The decrypted value goes into an existing plaintext. -/
def decryptInto (target : Name) (value : Encoding) : Api Encoding Unit := do
  let context ← get
  match context.plaintextSide.owners.lookup target with
  | none => pure ()
  | some pt =>
      if pt.loaded ∧ context.devices ≠ [] then
        throw "Inconsistent state: Plaintext is marked as loaded but no devices are available"
      else if pt.loaded then do
        onPlaintexts fun side => (side.evictDevicePlaintext pt.gpu).2
        if (context.plaintextSide.evictDevicePlaintext pt.gpu).1 then
          onPlaintexts fun side =>
            side.setOwner target { pt with cpu := value, loaded := false, gpu := 0 }
        else throw "Plaintext eviction error: could not evict Plaintext from device"
      else
        onPlaintexts fun side =>
          side.setOwner target { pt with cpu := value, loaded := false, gpu := 0 }

/-- A decryption fetches the ciphertext and fills a given or a new plaintext. -/
def decrypt (name : Name) (target : Option Name) (value : Encoding) : Api Encoding Unit := do
  let context ← get
  match context.ciphertexts.lookup name with
  | none => pure ()
  | some ct => do
      ensureUpToDateCpuCopy ct
      match target with
      | some pt => decryptInto pt value
      | none => newPlaintext ⟨value, 0, false, false⟩

/-- These are the calls of a program, and an evaluation is a sequence of them: its operands are
loaded, a result is a copy of a loaded operand, and then device objects are fetched and computed. -/
inductive Call (Encoding : Type) where
  | setDevices (devices : List Nat)
  | loadContext
  | encrypt
  | loadCiphertext (name : Name) (upload : Footprint)
  | unloadCiphertext (name : Name)
  | cloneCiphertext (source : Name) (limbBytes reloadBytes : Nat)
  | offloadCiphertext (handle : Handle)
  | reloadCiphertext (handle : Handle)
  | pinCiphertext (name : Name) (upload : Footprint)
  | unpinCiphertext (name : Name)
  | setCiphertextCache (bytes : Nat)
  | offloadCiphertexts
  | fetchCiphertext (name : Name)
  | computeCiphertext (name : Name) (footprint : Footprint)
  | deserializeCiphertext (name : Name)
  | destroyCiphertext (name : Name)
  | makePlaintext (value : Encoding)
  | loadPlaintext (name : Name) (bytes : Nat)
  | fetchPlaintext (name : Name)
  | pinPlaintext (name : Name) (bytes : Nat)
  | unpinPlaintext (name : Name)
  | setPlaintextCache (bytes : Nat)
  | offloadPlaintexts
  | openHold
  | closeHold
  | destroyPlaintext (name : Name)
  | decrypt (name : Name) (target : Option Name) (value : Encoding)

/-- Each call runs the translated API function. -/
def Call.perform : Call Encoding → Api Encoding Unit
  | .setDevices devices => Residency.setDevices devices
  | .loadContext => Residency.loadContext
  | .encrypt => newCiphertext ⟨0, false⟩
  | .loadCiphertext name upload => Residency.loadCiphertext name upload
  | .unloadCiphertext name => Residency.unloadCiphertext name
  | .cloneCiphertext source limbBytes reloadBytes =>
      Residency.cloneCiphertext source limbBytes reloadBytes
  | .offloadCiphertext handle => onCiphertexts fun side => side.offloadCiphertext handle
  | .reloadCiphertext handle => onCiphertexts fun side => side.reloadCiphertext handle
  | .pinCiphertext name upload => Residency.pinCiphertext name upload
  | .unpinCiphertext name => Residency.unpinCiphertext name
  | .setCiphertextCache bytes => onCiphertexts fun side => side.setCiphertextCache bytes
  | .offloadCiphertexts => onCiphertexts fun side => side.offloadCiphertexts
  | .fetchCiphertext name => Residency.fetchCiphertext name
  | .computeCiphertext name footprint => Residency.computeCiphertext name footprint
  | .deserializeCiphertext name => Residency.deserializeCiphertext name
  | .destroyCiphertext name => Residency.destroyCiphertext name
  | .makePlaintext value => Residency.makePlaintext value
  | .loadPlaintext name bytes => Residency.loadPlaintext name bytes
  | .fetchPlaintext name => Residency.fetchPlaintext name
  | .pinPlaintext name bytes => Residency.pinPlaintext name bytes
  | .unpinPlaintext name => Residency.unpinPlaintext name
  | .setPlaintextCache bytes => onPlaintexts fun side => side.setPlaintextCache bytes
  | .offloadPlaintexts => onPlaintexts fun side => side.offloadPlaintexts
  | .openHold => onPlaintexts fun side => side.openHold
  | .closeHold => onPlaintexts fun side => side.closeHold
  | .destroyPlaintext name => onPlaintexts fun side => side.destroyPlaintext name
  | .decrypt name target value => Residency.decrypt name target value

/-- A guard is only destroyed after it was constructed. -/
def Call.enabled : Call Encoding → Context Encoding → Prop
  | .closeHold, context => 0 < context.plaintextSide.plaintextCacheHold
  | _, _ => True

/-- A step performs one enabled call and goes on also when the call throws. -/
def step (call : Call Encoding) (before after : Context Encoding) : Prop :=
  call.enabled before ∧ after = ThrowingCalls.final call.perform before

/-- These calls run one after the other. -/
def performAll (calls : List (Call Encoding)) (context : Context Encoding) : Context Encoding :=
  calls.foldl (fun context call => ThrowingCalls.final call.perform context) context

/-- Each call of a list is enabled and meets the guard where it runs. -/
def Allowed (guard : Call Encoding → Context Encoding → Prop) :
    List (Call Encoding) → Context Encoding → Prop
  | [], _ => True
  | call :: rest, context =>
      call.enabled context ∧ guard call context ∧
        Allowed guard rest (ThrowingCalls.final call.perform context)

/-- A list of allowed calls continues a run. -/
theorem run_performAll {guard : Call Encoding → Context Encoding → Prop}
    {initial : Context Encoding} (calls : List (Call Encoding)) (context : Context Encoding)
    (past : StateMachine.Run step guard initial context) (allowed : Allowed guard calls context) :
    StateMachine.Run step guard initial (performAll calls context) := by
  induction calls generalizing context with
  | nil => exact past
  | cons call rest ih =>
      obtain ⟨enabled, meets, later⟩ := allowed
      exact ih _ (past.next meets ⟨enabled, rfl⟩) later

/-- A load uploads a ciphertext that is not loaded yet. -/
def uploadsCiphertext (name : Name) (context : Context Encoding) : Prop :=
  context.devices ≠ [] ∧ context.loaded = true ∧
    ∃ ct, context.ciphertexts.lookup name = some ct ∧ ct.loaded = false

/-- A load uploads a plaintext that is not loaded yet. -/
def uploadsPlaintext (name : Name) (context : Context Encoding) : Prop :=
  context.devices ≠ [] ∧ context.loaded = true ∧
    ∃ pt, context.plaintextSide.owners.lookup name = some pt ∧ pt.loaded = false

/-- These calls take a handle from the shared counter. -/
def Call.registers : Call Encoding → Context Encoding → Prop
  | .loadCiphertext name _, context => uploadsCiphertext name context
  | .pinCiphertext name _, context => uploadsCiphertext name context
  | .cloneCiphertext source _ _, context =>
      context.devices ≠ [] ∧
        ∃ ct, context.ciphertexts.lookup source = some ct ∧ ct.loaded = true
  | .loadPlaintext name _, context => uploadsPlaintext name context
  | .pinPlaintext name _, context => uploadsPlaintext name context
  | _, _ => False

end Fideslib.Residency
