/-
This file translates how API ciphertexts share their host ciphertexts and the calls on them.
-/

import Mathlib.Logic.Function.Basic
import Mathlib.Tactic
import Fideslib.Library.Run

namespace Fideslib.HostSharing

/-- An API ciphertext is known by the address of its object. -/
abbrev Name := Nat

/-- A host ciphertext of OpenFHE is known by its own address. -/
abbrev Address := Nat

/-- A transfer moves the data of a ciphertext between the host and the devices. -/
structure Transfer (Host Device : Type) where
  -- GetRawCipherText and the device constructor.
  upload : Host → Device
  -- EnsureUpToDateCPUCopy, over the host ciphertext that the object already has.
  download : Device → Host → Host
  -- The host ciphertext has at least the towers of the device ciphertext.
  hasRoom : Device → Host → Bool
  -- GetOpenFHECipherText alone, as a decryption uses it.
  overwrite : Device → Host → Host

/-- The device ciphertext of a loaded object is its own, since a handle has one live owner. -/
structure CiphertextImpl (Device : Type) where
  needLazyCopy : Bool
  -- The shared pointer to the host ciphertext.
  cpu : Address
  gpu : Option Device

def CiphertextImpl.loaded {Device : Type} (ct : CiphertextImpl Device) : Bool := ct.gpu.isSome

/-- A heap holds the API objects and the host ciphertexts behind their pointers. -/
structure Heap (Host Device : Type) where
  devices : List Nat
  loaded : Bool
  hosts : Address → Option Host
  nextAddress : Address
  objects : Name → Option (CiphertextImpl Device)
  nextName : Name

namespace Heap

variable {Host Device : Type} (transfer : Transfer Host Device)

def initial : Heap Host Device := ⟨[], false, fun _ => none, 0, fun _ => none, 0⟩

/-- This is the host ciphertext that the pointer of an object leads to. -/
def hostOf (heap : Heap Host Device) (name : Name) : Option Host :=
  (heap.objects name).bind fun ct => heap.hosts ct.cpu

def deviceOf (heap : Heap Host Device) (name : Name) : Option Device :=
  (heap.objects name).bind fun ct => ct.gpu

/-- A client reads back the device ciphertext while the object is loaded. -/
def value (heap : Heap Host Device) (name : Name) : Option Host :=
  match heap.deviceOf name with
  | none => heap.hostOf name
  | some device => (heap.hostOf name).map (transfer.download device)

def setObject (name : Name) (ct : CiphertextImpl Device) (heap : Heap Host Device) :
    Heap Host Device :=
  { heap with objects := Function.update heap.objects name (some ct) }

/-- A new host ciphertext takes an address that no other one had. -/
def allocate (host : Option Host) (heap : Heap Host Device) : Heap Host Device :=
  { heap with
    hosts := Function.update heap.hosts heap.nextAddress host
    nextAddress := heap.nextAddress + 1 }

/-- The pointer of the object is assigned a new host ciphertext. -/
def assign (name : Name) (host : Host) (heap : Heap Host Device) : Heap Host Device :=
  match heap.objects name with
  | none => heap
  | some ct => (heap.allocate (some host)).setObject name { ct with cpu := heap.nextAddress }

/-- The host ciphertext is written through the pointer of the object. -/
def write (name : Name) (host : Host) (heap : Heap Host Device) : Heap Host Device :=
  match heap.objects name with
  | none => heap
  | some ct => { heap with hosts := Function.update heap.hosts ct.cpu (some host) }

/-- A new object takes a name that no other one had. -/
def create (ct : CiphertextImpl Device) (heap : Heap Host Device) : Heap Host Device :=
  { heap.setObject heap.nextName ct with nextName := heap.nextName + 1 }

/-- The copy constructor shares the host ciphertext and copies the device ciphertext, and only the
copy is marked. -/
def clone (source : Name) (heap : Heap Host Device) : Heap Host Device :=
  match heap.objects source with
  | none => heap
  | some other => heap.create ⟨true, other.cpu, other.gpu⟩

/-- A result of OpenFHE gets an object of its own. -/
def wrap (host : Host) (heap : Heap Host Device) : Heap Host Device :=
  (heap.allocate (some host)).create ⟨false, heap.nextAddress, none⟩

def ensureLazyCpuCopy (name : Name) (heap : Heap Host Device) : Heap Host Device :=
  match heap.objects name with
  | none => heap
  | some ct =>
      if ct.needLazyCopy then
        (heap.allocate (heap.hosts ct.cpu)).setObject name ⟨false, heap.nextAddress, ct.gpu⟩
      else heap

/-- The kernels replace the device ciphertext of a loaded object. -/
def compute (name : Name) (device : Device) (heap : Heap Host Device) : Heap Host Device :=
  match heap.objects name with
  | none => heap
  | some ct => heap.setObject name { ct with gpu := some device }

def loadCiphertext (name : Name) (heap : Heap Host Device) : Except String (Heap Host Device) :=
  if heap.devices = [] then .ok heap
  else match heap.objects name with
    | none => .ok heap
    | some ct =>
        if ct.loaded then .ok heap
        else if heap.loaded then
          .ok (heap.setObject name { ct with gpu := (heap.hosts ct.cpu).map transfer.upload })
        else .error "CryptoContext not loaded to any device"

/-- The download lands in the host ciphertext behind the pointer. -/
def ensureUpToDateCpuCopy (name : Name) (heap : Heap Host Device) : Heap Host Device :=
  match heap.deviceOf name with
  | none => heap
  | some device =>
      let detached := heap.ensureLazyCpuCopy name
      match detached.hostOf name with
      | none => detached
      | some host => detached.write name (transfer.download device host)

def unloadCiphertext (name : Name) (heap : Heap Host Device) : Heap Host Device :=
  let stored := heap.ensureUpToDateCpuCopy transfer name
  match stored.objects name with
  | none => stored
  | some ct => stored.setObject name { ct with gpu := none }

/-- A host ciphertext with too few towers gives way to a fresh encryption before the download. -/
def decrypt (name : Name) (fresh : Host) (heap : Heap Host Device) : Heap Host Device :=
  match heap.deviceOf name with
  | none => heap
  | some device =>
      let detached := heap.ensureLazyCpuCopy name
      match detached.hostOf name with
      | none => detached
      | some host =>
          if transfer.hasRoom device host then
            detached.write name (transfer.overwrite device host)
          else detached.assign name (transfer.overwrite device fresh)

/-- A deserialized ciphertext is assigned to an object that forgets its device ciphertext. -/
def deserialize (name : Name) (host : Host) (heap : Heap Host Device) : Heap Host Device :=
  match heap.objects name with
  | none => heap
  | some _ => (heap.allocate (some host)).setObject name ⟨false, heap.nextAddress, none⟩

def destroy (name : Name) (heap : Heap Host Device) : Heap Host Device :=
  { heap with objects := Function.update heap.objects name none }

end Heap
end Fideslib.HostSharing

namespace Fideslib.HostSharing

/-- OpenFHE keeps a host ciphertext that it may mutate, writes it in place or assigns a new one. -/
inductive HostChange (Host : Type) where
  | kept
  | written (host : Host)
  | assigned (host : Host)

/-- The host paths of the in-place functions differ in how they take OpenFHE's result. -/
inductive HostPath (Host : Type) where
  -- The copy is detached, and OpenFHE's own in-place function gets the pointer.
  | inPlace (openfhe : List Host → HostChange Host)
  -- A result of OpenFHE is assigned to the pointer, and not every function detaches before.
  | assigns (detaches : Bool) (openfhe : List Host → Host)
  -- A new object replaces the caller's one.
  | replaces (openfhe : List Host → Host)
  | refuses (message : String)

/-- An in-place function has a host path and kernels. -/
structure InPlace (Host Device : Type) where
  host : HostPath Host
  device : List Device → Device

section InPlaceFunctions

variable {Host Device : Type}

def evalNegateInPlace (openfhe : List Host → HostChange Host) (negate : List Device → Device) :
    InPlace Host Device :=
  ⟨.inPlace openfhe, negate⟩

/-- The second operand is a ciphertext, a plaintext or a scalar. -/
def evalAddInPlace (openfhe : List Host → HostChange Host) (add : List Device → Device) :
    InPlace Host Device :=
  ⟨.inPlace openfhe, add⟩

def evalSubInPlace (openfhe : List Host → HostChange Host) (sub : List Device → Device) :
    InPlace Host Device :=
  ⟨.inPlace openfhe, sub⟩

def evalMultInPlaceScalar (openfhe : List Host → HostChange Host)
    (multScalar : List Device → Device) : InPlace Host Device :=
  ⟨.inPlace openfhe, multScalar⟩

def evalMultInPlacePlaintext (openfhe : List Host → Host) (multPt : List Device → Device) :
    InPlace Host Device :=
  ⟨.assigns true openfhe, multPt⟩

def evalSquareInPlace (openfhe : List Host → HostChange Host) (square : List Device → Device) :
    InPlace Host Device :=
  ⟨.inPlace openfhe, square⟩

def accumulateSumInPlace (openfhe : List Host → HostChange Host)
    (accumulate : List Device → Device) : InPlace Host Device :=
  ⟨.inPlace openfhe, accumulate⟩

def evalRotateInPlace (openfhe : List Host → Host) (rotate : List Device → Device) :
    InPlace Host Device :=
  ⟨.assigns false openfhe, rotate⟩

def evalChebyshevSeriesInPlace (openfhe : List Host → Host) (series : List Device → Device) :
    InPlace Host Device :=
  ⟨.assigns true openfhe, series⟩

def rescaleInPlace (openfhe : List Host → Host) (rescaleInternal : List Device → Device) :
    InPlace Host Device :=
  ⟨.assigns true openfhe, rescaleInternal⟩

def evalBootstrapInPlace (openfhe : List Host → Host) (bootstrap : List Device → Device) :
    InPlace Host Device :=
  ⟨.replaces openfhe, bootstrap⟩

/-- Both convolution transforms only run on a device. -/
def convolutionTransformInPlace (convolution : List Device → Device) : InPlace Host Device :=
  ⟨.refuses "Not implemented for CPU path", convolution⟩

end InPlaceFunctions

/-- A mutable form may adjust every target and makes a result unless it works in place. -/
structure Mutable (Host Device : Type) where
  result : Bool
  host : List Host → List (HostChange Host) × Host
  device : List Device → List Device × Device

/-- A function that makes a result has a value on the host and one on the device. -/
structure Producer (Host Device : Type) where
  host : List Host → Host
  device : List Device → Device

/-- A setter changes the device ciphertext of a loaded object and the host ciphertext else. -/
structure Setter (Host Device : Type) where
  host : Host → Host
  device : Device → Device

/-- The first entry of a reduced list is a new host ciphertext or one that was in the list. -/
inductive Reduced (Host : Type) where
  | made (host : Host)
  | entry (name : Name)

/-- A reduction writes its entries in place and leaves one pointer in the first place. -/
structure Reduction (Host Device : Type) where
  host : List Host → List (Option Host) × Reduced Host
  device : List Device → Device

namespace Heap

variable {Host Device : Type} (transfer : Transfer Host Device)

def hostsOf (heap : Heap Host Device) (names : List Name) : List Host :=
  names.filterMap heap.hostOf

def devicesOf (heap : Heap Host Device) (names : List Name) : List Device :=
  names.filterMap heap.deviceOf

def settle (heap : Heap Host Device) (change : Name × HostChange Host) : Heap Host Device :=
  match change.2 with
  | .kept => heap
  | .written host => heap.write change.1 host
  | .assigned host => heap.assign change.1 host

def loadAll : List Name → Heap Host Device → Except String (Heap Host Device)
  | [], heap => .ok heap
  | name :: rest, heap =>
      match heap.loadCiphertext transfer name with
      | .error message => .error message
      | .ok loaded => loadAll rest loaded

def detachAll (names : List Name) (heap : Heap Host Device) : Heap Host Device :=
  names.foldl (fun heap name => heap.ensureLazyCpuCopy name) heap

/-- A result on the device is a copy of the first operand that the kernels then change. -/
def copyInto (source : Name) (device : Device) (heap : Heap Host Device) : Heap Host Device :=
  (heap.clone source).compute heap.nextName device

def evalInPlace (function : InPlace Host Device) (ct : Name) (operands : List Name)
    (heap : Heap Host Device) : Except String (Heap Host Device) :=
  if heap.devices = [] then
    match function.host with
    | .inPlace openfhe =>
        let detached := heap.ensureLazyCpuCopy ct
        .ok (detached.settle (ct, openfhe (detached.hostsOf (ct :: operands))))
    | .assigns detaches openfhe =>
        let detached := if detaches then heap.ensureLazyCpuCopy ct else heap
        .ok (detached.assign ct (openfhe (detached.hostsOf (ct :: operands))))
    | .replaces openfhe => .ok (heap.wrap (openfhe (heap.hostsOf (ct :: operands))))
    | .refuses message => .error message
  else
    match heap.loadAll transfer (ct :: operands) with
    | .error message => .error message
    | .ok loaded => .ok (loaded.compute ct (function.device (loaded.devicesOf (ct :: operands))))

def evalMutable (function : Mutable Host Device) (targets : List Name)
    (heap : Heap Host Device) : Except String (Heap Host Device) :=
  if heap.devices = [] then
    let detached := heap.detachAll targets
    let outcome := function.host (detached.hostsOf targets)
    let settled := (targets.zip outcome.1).foldl settle detached
    .ok (if function.result then settled.wrap outcome.2 else settled)
  else
    match heap.loadAll transfer targets with
    | .error message => .error message
    | .ok loaded =>
        let outcome := function.device (loaded.devicesOf targets)
        let copied := match function.result, targets with
          | true, first :: _ => loaded.copyInto first outcome.2
          | _, _ => loaded
        .ok ((targets.zip outcome.1).foldl (fun heap change => heap.compute change.1 change.2)
          copied)

/-- The functions that are neither in place nor mutable make one result. -/
def evalNew (function : Producer Host Device) (first : Name) (operands : List Name)
    (heap : Heap Host Device) : Except String (Heap Host Device) :=
  if heap.devices = [] then .ok (heap.wrap (function.host (heap.hostsOf (first :: operands))))
  else
    match heap.loadAll transfer (first :: operands) with
    | .error message => .error message
    | .ok loaded =>
        .ok (loaded.copyInto first (function.device (loaded.devicesOf (first :: operands))))

/-- The hoisted rotations make one copy of the ciphertext for every index. -/
def evalFastRotation (rotations : List (Producer Host Device)) (ct : Name)
    (heap : Heap Host Device) : Except String (Heap Host Device) :=
  if heap.devices = [] then
    .ok (rotations.foldl (fun heap rotation =>
      (heap.clone ct).assign heap.nextName (rotation.host (heap.hostsOf [ct]))) heap)
  else
    match heap.loadCiphertext transfer ct with
    | .error message => .error message
    | .ok loaded =>
        .ok (rotations.foldl (fun heap rotation =>
          heap.copyInto ct (rotation.device (heap.devicesOf [ct]))) loaded)

/-- The first place of the list takes the pointer that the reduction left there. -/
def place (slot : Option Name) (reduced : Reduced Host) (heap : Heap Host Device) :
    Heap Host Device :=
  match slot, reduced with
  | none, .made host => heap.wrap host
  | some name, .made host => heap.assign name host
  | none, .entry source =>
      match heap.objects source with
      | none => heap
      | some other => heap.create ⟨false, other.cpu, none⟩
  | some name, .entry source =>
      match heap.objects name, heap.objects source with
      | some ct, some other => heap.setObject name { ct with cpu := other.cpu }
      | _, _ => heap

def evalAddManyInPlace (function : Reduction Host Device) (entries : List (Option Name))
    (heap : Heap Host Device) : Except String (Heap Host Device) :=
  let present := entries.filterMap id
  if heap.devices = [] then
    let detached := heap.detachAll present
    let outcome := function.host (detached.hostsOf present)
    let written := (present.zip outcome.1).foldl
      (fun heap change => change.2.elim heap (heap.write change.1)) detached
    .ok (written.place (entries.headD none) outcome.2)
  else
    match heap.loadAll transfer present with
    | .error message => .error message
    | .ok loaded =>
        match present with
        | [] => .error "EvalAddManyInPlace: input ciphertext vector has no non-null entries"
        | first :: _ => .ok (loaded.compute first (function.device (loaded.devicesOf present)))

/-- SetSlots and SetLevel look at the object and not at the devices of the context. -/
def set (setter : Setter Host Device) (name : Name) (heap : Heap Host Device) :
    Heap Host Device :=
  match heap.deviceOf name with
  | some device => heap.compute name (setter.device device)
  | none =>
      let detached := heap.ensureLazyCpuCopy name
      match detached.hostOf name with
      | none => detached
      | some host => detached.write name (setter.host host)

end Heap

/-- These are the calls of a program, with the values that OpenFHE and the kernels compute. -/
inductive Call (Host Device : Type) where
  | setDevices (devices : List Nat)
  | loadContext
  | encrypt (host : Host)
  | clone (source : Name)
  | loadCiphertext (name : Name)
  | unloadCiphertext (name : Name)
  -- The serialization and the comparison read the elements in the same way.
  | getElements (name : Name)
  | decrypt (name : Name) (fresh : Host)
  | set (setter : Setter Host Device) (name : Name)
  | evalNew (function : Producer Host Device) (first : Name) (operands : List Name)
  | evalFastRotation (rotations : List (Producer Host Device)) (ct : Name)
  | evalInPlace (function : InPlace Host Device) (ct : Name) (operands : List Name)
  | evalMutable (function : Mutable Host Device) (targets : List Name)
  | evalAddManyInPlace (function : Reduction Host Device) (entries : List (Option Name))
  | deserialize (name : Name) (host : Host)
  | destroy (name : Name)

variable {Host Device : Type} (transfer : Transfer Host Device)

/-- Each call runs the translated function or throws. -/
def Call.perform : Call Host Device → Heap Host Device → Except String (Heap Host Device)
  | .setDevices devices, heap =>
      if heap.loaded then .error "SetDevices must be called before LoadContext"
      else .ok { heap with devices := devices }
  | .loadContext, heap => .ok (if heap.devices = [] then heap else { heap with loaded := true })
  | .encrypt host, heap => .ok (heap.wrap host)
  | .clone source, heap => .ok (heap.clone source)
  | .loadCiphertext name, heap => heap.loadCiphertext transfer name
  | .unloadCiphertext name, heap => .ok (heap.unloadCiphertext transfer name)
  | .getElements name, heap => .ok (heap.ensureUpToDateCpuCopy transfer name)
  | .decrypt name fresh, heap => .ok (heap.decrypt transfer name fresh)
  | .set setter name, heap => .ok (heap.set setter name)
  | .evalNew function first operands, heap => heap.evalNew transfer function first operands
  | .evalFastRotation rotations ct, heap => heap.evalFastRotation transfer rotations ct
  | .evalInPlace function ct operands, heap => heap.evalInPlace transfer function ct operands
  | .evalMutable function targets, heap => heap.evalMutable transfer function targets
  | .evalAddManyInPlace function entries, heap => heap.evalAddManyInPlace transfer function entries
  | .deserialize name host, heap => .ok (heap.deserialize name host)
  | .destroy name, heap => .ok (heap.destroy name)

/-- A call that throws does so before it changes an object. -/
def Call.after (call : Call Host Device) (heap : Heap Host Device) : Heap Host Device :=
  match call.perform transfer heap with
  | .ok next => next
  | .error _ => heap

/-- A step performs one call. -/
def step (call : Call Host Device) (before after : Heap Host Device) : Prop :=
  after = call.after transfer before

/-- These calls run one after the other. -/
def performAll (calls : List (Call Host Device)) (heap : Heap Host Device) : Heap Host Device :=
  calls.foldl (fun heap call => call.after transfer heap) heap

/-- A call mutates these objects or refreshes their own representation. -/
def Call.subjects : Call Host Device → List Name
  | .loadCiphertext name | .unloadCiphertext name | .getElements name | .decrypt name _
  | .set _ name | .deserialize name _ | .destroy name => [name]
  | .evalInPlace _ ct _ => [ct]
  | .evalMutable _ targets => targets
  | .evalAddManyInPlace _ entries => entries.filterMap id
  | .setDevices _ | .loadContext | .encrypt _ | .clone _ | .evalNew _ _ _
  | .evalFastRotation _ _ => []

end Fideslib.HostSharing
