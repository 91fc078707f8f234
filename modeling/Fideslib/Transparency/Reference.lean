/-
This file states what a program computes when every operation uploads its plaintexts afresh.
-/

import Fideslib.Library.ThrowingCalls
import Fideslib.Transparency.Machine

namespace Fideslib.Transparency

open Fideslib.CKKS Fideslib.Residency

variable {F : Type}

/-- A program sees the host encodings and the ciphertexts, and no device copy of a plaintext. -/
structure Reference (HostCiphertext : Type) (cc : ContextData F) where
  devices : List Nat
  loaded : Bool
  encodings : Name → Option (Encoding F)
  ciphertexts : Name → Option (CiphertextImpl HostCiphertext cc)
  nextName : Name

variable {HostCiphertext : Type} {cc : ContextData F}

/-- The reference forgets the plaintext cache. -/
def Machine.reference (machine : Machine HostCiphertext cc) : Reference HostCiphertext cc where
  devices := machine.devices
  loaded := machine.loaded
  encodings := fun name => (machine.plaintextSide.owners.lookup name).map PlaintextImpl.cpu
  ciphertexts := machine.ciphertexts
  nextName := machine.nextName

namespace Reference

/-- A call on the reference returns or throws. -/
abbrev Spec (HostCiphertext : Type) (cc : ContextData F) (Value : Type) :=
  EStateM Fault (Reference HostCiphertext cc) Value

variable (functions : Functions HostCiphertext cc)

def onEncodings (change : (Name → Option (Encoding F)) → Name → Option (Encoding F)) :
    Spec HostCiphertext cc Unit :=
  modify fun reference => { reference with encodings := change reference.encodings }

def setCiphertext (name : Name) (ct : CiphertextImpl HostCiphertext cc) :
    Spec HostCiphertext cc Unit :=
  modify fun reference =>
    { reference with ciphertexts := Function.update reference.ciphertexts name (some ct) }

/-- The value of a loaded plaintext is a fresh upload of its encoding. -/
def fetchPlaintext (name : Name) : Spec HostCiphertext cc (Plaintext cc) := do
  let reference ← get
  match reference.encodings name with
  | none => throw .outOfRange
  | some value =>
      if reference.loaded then lift (uploadPlaintext functions value)
      else throw (.openFHE "CryptoContext not loaded to any device")

def loadPlaintext (name : Name) : Spec HostCiphertext cc Unit := do
  let reference ← get
  match reference.encodings name with
  | none => throw .outOfRange
  | some value =>
      if reference.devices = [] then pure ()
      else if reference.loaded then lift ((uploadPlaintext functions value).map fun _ => ())
      else throw (.openFHE "CryptoContext not loaded to any device")

theorem fetchPlaintext_run (name : Name) (reference : Reference HostCiphertext cc) :
    (fetchPlaintext functions name).run reference =
      match reference.encodings name with
      | none => .error .outOfRange reference
      | some value =>
          if reference.loaded then (lift (uploadPlaintext functions value)).run reference
          else .error (.openFHE "CryptoContext not loaded to any device") reference := by
  unfold fetchPlaintext
  rw [EStateM.run_bind, EStateM.run_get]
  dsimp only
  cases reference.encodings name with
  | none => rfl
  | some value =>
      dsimp only
      split <;> rfl

/-- A load without a cache only tries the upload. -/
theorem loadPlaintext_run (name : Name) (reference : Reference HostCiphertext cc) :
    (loadPlaintext functions name).run reference =
      match reference.encodings name with
      | none => .error .outOfRange reference
      | some value =>
          if reference.devices = [] then .ok () reference
          else if reference.loaded then
            (lift ((uploadPlaintext functions value).map fun _ => ())).run reference
          else .error (.openFHE "CryptoContext not loaded to any device") reference := by
  unfold loadPlaintext
  rw [EStateM.run_bind, EStateM.run_get]
  dsimp only
  cases reference.encodings name with
  | none => rfl
  | some value =>
      dsimp only
      split
      case isTrue => rfl
      case isFalse => split <;> rfl

/-- A load changes nothing that a program sees. -/
theorem loadPlaintext_still {name : Name} {reference reached : Reference HostCiphertext cc}
    (done : (loadPlaintext functions name).run reference = .ok () reached) :
    reached = reference := by
  rw [loadPlaintext_run] at done
  split at done
  case h_1 => cases done
  case h_2 value _ =>
    split at done
    case isTrue =>
      cases done
      rfl
    case isFalse =>
      split at done
      case isTrue =>
        cases uploads : uploadPlaintext functions value with
        | ok copy =>
            rw [uploads] at done
            cases done
            rfl
        | error thrown =>
            rw [uploads] at done
            cases done
      case isFalse => cases done

def fetchPlaintexts : List Name → Spec HostCiphertext cc (List (Plaintext cc))
  | [] => pure []
  | name :: rest => do
      loadPlaintext functions name
      let value ← fetchPlaintext functions name
      let values ← fetchPlaintexts rest
      pure (value :: values)

def loadCiphertext (name : Name) :
    Spec HostCiphertext cc (CiphertextImpl HostCiphertext cc × Ciphertext cc) := do
  let reference ← get
  match reference.ciphertexts name with
  | none => throw .outOfRange
  | some ct =>
      match ct.gpu with
      | some device => pure (ct, device)
      | none =>
          if reference.loaded then do
            setCiphertext name { ct with gpu := some (functions.upload ct.cpu) }
            pure ({ ct with gpu := some (functions.upload ct.cpu) }, functions.upload ct.cpu)
          else throw (.openFHE "CryptoContext not loaded to any device")

def hostEncodings : List Name → Spec HostCiphertext cc (List (Encoding F))
  | [] => pure []
  | name :: rest => do
      let reference ← get
      match reference.encodings name with
      | none => throw .outOfRange
      | some value => do
          let encodings ← hostEncodings rest
          pure (value :: encodings)

/-- Only a live plaintext gets a new encoding. -/
def setEncoding (name : Name) (value : Encoding F) (encodings : Name → Option (Encoding F)) :
    Name → Option (Encoding F) :=
  if (encodings name).isSome then Function.update encodings name (some value) else encodings

def setEncodings : List Name → List (Encoding F) → (Name → Option (Encoding F)) →
    Name → Option (Encoding F)
  | name :: names, value :: values, encodings =>
      setEncodings names values (setEncoding name value encodings)
  | _, _, encodings => encodings

def evaluateOnHost (operation : Operation cc) (ct : Name) (pts : List Name) (result : Option Name) :
    Spec HostCiphertext cc Unit := do
  let reference ← get
  match reference.ciphertexts ct with
  | none => throw .outOfRange
  | some receiver => do
      let encodings ← hostEncodings pts
      let (value, changed, adjusted) ← lift (functions.evaluate operation receiver.cpu encodings)
      onEncodings (setEncodings pts adjusted)
      setCiphertext ct { receiver with cpu := changed }
      setCiphertext (result.getD ct) ⟨value, none⟩

def setDevices (devices : List Nat) : Spec HostCiphertext cc Unit := do
  let reference ← get
  if reference.loaded then throw (.openFHE "SetDevices must be called before LoadContext")
  else modify fun reference => { reference with devices := devices }

def loadContext : Spec HostCiphertext cc Unit :=
  modify fun reference =>
    { reference with loaded := reference.loaded || decide (reference.devices ≠ []) }

def newPlaintext (value : Encoding F) : Spec HostCiphertext cc Unit :=
  modify fun reference =>
    { reference with
      encodings := Function.update reference.encodings reference.nextName (some value)
      nextName := reference.nextName + 1 }

def changeEncoding (name : Name) (change : Encoding F → Encoding F) :
    Spec HostCiphertext cc Unit := do
  let reference ← get
  match reference.encodings name with
  | none => throw .outOfRange
  | some value => onEncodings (setEncoding name (change value))

def destroyPlaintext (name : Name) : Spec HostCiphertext cc Unit :=
  onEncodings fun encodings => Function.update encodings name none

def encrypt (pt result : Name) : Spec HostCiphertext cc Unit := do
  let reference ← get
  match reference.encodings pt with
  | none => throw .outOfRange
  | some value => setCiphertext result ⟨functions.encrypt value, none⟩

def decryptInto (target : Name) (value : Encoding F) : Spec HostCiphertext cc Unit := do
  let reference ← get
  match reference.encodings target with
  | none => throw .outOfRange
  | some _ => onEncodings (setEncoding target value)

def decrypt (ct : Name) (target : Option Name) : Spec HostCiphertext cc Unit := do
  let reference ← get
  match reference.ciphertexts ct with
  | none => throw .outOfRange
  | some receiver => do
      let (cpu, value) ← lift (functions.decrypt receiver)
      setCiphertext ct { receiver with cpu := cpu }
      match target with
      | some pt => decryptInto pt value
      | none => newPlaintext value

def onCiphertexts (call : CiphertextCall HostCiphertext cc) : Spec HostCiphertext cc Unit := do
  let reference ← get
  modify fun reference =>
    { reference with
      ciphertexts := (call.effect reference.devices reference.loaded reference.ciphertexts).2 }
  lift (call.effect reference.devices reference.loaded reference.ciphertexts).1

variable [Mul F] [Div F] [One F]

def finish (operation : Operation cc) (ct : Name) (result : Option Name)
    (receiver : CiphertextImpl HostCiphertext cc) (device : Ciphertext cc)
    (operands : List (Plaintext cc)) :
    Except Failure (Ciphertext cc × Option (Plaintext cc)) → Spec HostCiphertext cc Unit
  | .ok (value, _) => setCiphertext (result.getD ct) { receiver with gpu := some value }
  | .error failure => do
      if result.isNone then
        setCiphertext ct { receiver with gpu := some (operation.interrupted device operands) }
      throw (.device failure)

def evaluate (operation : Operation cc) (ct : Name) (pts : List Name) (result : Option Name) :
    Spec HostCiphertext cc Unit := do
  let reference ← get
  if reference.devices = [] then evaluateOnHost functions operation ct pts result
  else do
    let (receiver, device) ← loadCiphertext functions ct
    let operands ← fetchPlaintexts functions pts
    finish operation ct result receiver device operands
      (operation.onDevice functions.calls device operands)

/-- A call that moves the cache does nothing to the reference. -/
def perform : Call HostCiphertext cc → Spec HostCiphertext cc Unit
  | .setDevices devices => setDevices devices
  | .loadContext => loadContext
  | .makePlaintext value => newPlaintext value
  | .loadPlaintext name | .pinPlaintext name => loadPlaintext functions name
  | .unpinPlaintext _ => pure ()
  | .setSlots name slots => changeEncoding name fun value => { value with slots := slots }
  | .setLength name length => changeEncoding name fun value => { value with length := length }
  | .destroyPlaintext name => destroyPlaintext name
  | .encrypt pt result => encrypt functions pt result
  | .decrypt ct target => decrypt functions ct target
  | .evaluate operation ct pts result => evaluate functions operation ct pts result
  | .onCiphertexts call => onCiphertexts call
  | .setPlaintextCache _ | .offloadPlaintexts | .offloadPlaintextHandle _ => pure ()

end Reference

variable (functions : Functions HostCiphertext cc) [Mul F] [Div F] [One F]

/-- After each call of the program the caller sees what it threw, the encodings and the
ciphertexts. -/
def observe : List (Call HostCiphertext cc) → Machine HostCiphertext cc →
    List (Option Fault × Reference HostCiphertext cc)
  | [], _ => []
  | call :: rest, machine =>
      let after := ThrowingCalls.final (call.perform functions) machine
      if call.isCache then observe rest after
      else (ThrowingCalls.fault (call.perform functions) machine, after.reference) ::
        observe rest after

/-- The reference runs the calls of the program only. -/
def Reference.observe : List (Call HostCiphertext cc) → Reference HostCiphertext cc →
    List (Option Fault × Reference HostCiphertext cc)
  | [], _ => []
  | call :: rest, reference =>
      let after := ThrowingCalls.final (Reference.perform functions call) reference
      (ThrowingCalls.fault (Reference.perform functions call) reference, after) ::
        observe rest after

end Fideslib.Transparency
