/-
This file models the evaluation calls of the interface on the device and their in-place forms.
-/

import Fideslib.CKKS.Aliased
import Fideslib.CKKS.Plaintext

namespace Fideslib.Api

open Fideslib.CKKS

variable {F : Type} [Mul F] [Div F] [One F] [Neg F]

inductive BootstrapMode where
  | unconfigured
  | standard
  | stcFirst
  | fbt
  | fefbt
deriving DecidableEq, Repr

def bootstrapModeName : BootstrapMode → String
  | .standard => "the standard bootstrap (EvalBootstrapSetup)"
  | .stcFirst => "the SlotsToCoeffs-first bootstrap (EvalBootstrapStCFirst)"
  | .fbt => "a reserved bootstrap mode"
  | .fefbt => "a reserved bootstrap mode"
  | .unconfigured => "no bootstrapping setup"

/-- These are the evaluation key, the recursion bound and the device functions of a context. -/
structure DeviceContext (cc : ContextData F) where
  calls : Nat
  keys : String → Option (EvalKey cc)
  bootstrap_mode : Int → Option BootstrapMode
  addScalar : F → Ciphertext cc → Except Failure (Ciphertext cc)
  rotate : Int → Ciphertext cc → Except Failure (Ciphertext cc)
  evalChebyshevSeries : List F → F → F → Ciphertext cc → Except Failure (Ciphertext cc)
  Bootstrap : Int → Bool → Nat → Nat → Ciphertext cc → Except Failure (Ciphertext cc)

/-- A handle of the device names one object. The handles from `next` on are free. -/
structure Device (cc : ContextData F) where
  ciphertext : Nat → Ciphertext cc
  plaintext : Nat → Plaintext cc
  next : Nat

namespace Device

variable {cc : ContextData F}

def storeCiphertext (device : Device cc) (handle : Nat) (value : Ciphertext cc) : Device cc :=
  { device with ciphertext := Function.update device.ciphertext handle value }

def storePlaintext (device : Device cc) (handle : Nat) (value : Plaintext cc) : Device cc :=
  { device with plaintext := Function.update device.plaintext handle value }

def copyDeviceCiphertext (device : Device cc) (ct : Nat) : Nat × Device cc :=
  (device.next,
    { device.storeCiphertext device.next (device.ciphertext ct) with next := device.next + 1 })

/-- The receiver is replaced by what one operation makes of it. -/
def modify (change : Ciphertext cc → Except Failure (Ciphertext cc)) (device : Device cc)
    (receiver : Nat) : Except Failure (Device cc) := do
  return device.storeCiphertext receiver (← change (device.ciphertext receiver))

/-- The second operand may be the receiver itself. -/
def combine (aliased : Ciphertext cc → Except Failure (Ciphertext cc))
    (apart : Ciphertext cc → Ciphertext cc → Except Failure (Ciphertext cc)) (device : Device cc)
    (receiver b : Nat) : Except Failure (Device cc) :=
  if receiver = b then modify aliased device receiver
  else modify (fun value => apart value (device.ciphertext b)) device receiver

/-- A mutable operation writes the second operand too. -/
def combineMutable (aliased : Ciphertext cc → Except Failure (Ciphertext cc))
    (apart : Ciphertext cc → Ciphertext cc → Except Failure (Ciphertext cc × Ciphertext cc))
    (device : Device cc) (receiver b : Nat) : Except Failure (Device cc) :=
  if receiver = b then modify aliased device receiver
  else do
    let (value, operand) ← apart (device.ciphertext receiver) (device.ciphertext b)
    return (device.storeCiphertext b operand).storeCiphertext receiver value

def combinePt (change : Ciphertext cc → Plaintext cc → Except Failure (Ciphertext cc))
    (device : Device cc) (receiver pt : Nat) : Except Failure (Device cc) :=
  modify (fun value => change value (device.plaintext pt)) device receiver

def combinePtMutable
    (change : Ciphertext cc → Plaintext cc → Except Failure (Ciphertext cc × Plaintext cc))
    (device : Device cc) (receiver pt : Nat) : Except Failure (Device cc) := do
  let (value, operand) ← change (device.ciphertext receiver) (device.plaintext pt)
  return (device.storePlaintext pt operand).storeCiphertext receiver value

end Device

namespace DeviceContext

variable {cc : ContextData F} (context : DeviceContext cc) (device : Device cc)

def checkBootstrapMode (slot : Int) (allowed : List BootstrapMode) (who : String) :
    Except Failure Unit :=
  match context.bootstrap_mode slot with
  | none | some .unconfigured =>
      .error (.openFHE (who ++ ": no bootstrapping precomputation for slots=" ++ toString slot ++
        " (run the matching setup before LoadContext)."))
  | some mode =>
      if mode ∈ allowed then .ok ()
      else .error (.openFHE (who ++ ": slots=" ++ toString slot ++ " is configured for " ++
        bootstrapModeName mode ++ ", which is incompatible with this evaluation."))

/-- The operation runs on a fresh copy of its first operand. -/
def onCopy (operate : Device cc → Nat → Except Failure (Device cc)) (ct : Nat) :
    Except Failure (Nat × Device cc) := do
  let (result, copied) := device.copyDeviceCiphertext ct
  return (result, ← operate copied result)

def evalNegate (ct : Nat) : Except Failure (Nat × Device cc) :=
  onCopy device (Device.modify fun value => .ok value.negate) ct

def evalNegateInPlace (ct : Nat) : Except Failure (Device cc) :=
  Device.modify (fun value => .ok value.negate) device ct

def add (receiver b : Nat) : Except Failure (Device cc) :=
  device.combine (Ciphertext.addSelf context.calls) (Ciphertext.add context.calls) receiver b

def sub (receiver b : Nat) : Except Failure (Device cc) :=
  device.combine (Ciphertext.subSelf context.calls) (Ciphertext.sub context.calls) receiver b

def evalAdd (ct1 ct2 : Nat) : Except Failure (Nat × Device cc) :=
  onCopy device (fun copied result => context.add copied result ct2) ct1

def evalAddInPlace (ct1 ct2 : Nat) : Except Failure (Device cc) := context.add device ct1 ct2

def evalAddPlaintext (ct pt : Nat) : Except Failure (Nat × Device cc) :=
  onCopy device
    (fun copied result => copied.combinePt (Ciphertext.addPt context.calls) result pt) ct

def evalAddPlaintextInPlace (ct1 pt : Nat) : Except Failure (Device cc) :=
  device.combinePt (Ciphertext.addPt context.calls) ct1 pt

def evalAddScalar (ct : Nat) (scalar : F) : Except Failure (Nat × Device cc) :=
  onCopy device (Device.modify (context.addScalar scalar)) ct

def evalAddScalarInPlace (ct1 : Nat) (scalar : F) : Except Failure (Device cc) :=
  Device.modify (context.addScalar scalar) device ct1

def addMutable (receiver b : Nat) : Except Failure (Device cc) :=
  device.combineMutable (Ciphertext.addMutableSelf context.calls)
    (Ciphertext.addMutable context.calls) receiver b

def evalAddMutable (ct1 ct2 : Nat) : Except Failure (Nat × Device cc) :=
  onCopy device (fun copied result => context.addMutable copied result ct2) ct1

def evalAddMutableInPlace (ct1 ct2 : Nat) : Except Failure (Device cc) :=
  context.addMutable device ct1 ct2

def evalAddPlaintextMutable (ct pt : Nat) : Except Failure (Nat × Device cc) :=
  onCopy device
    (fun copied result => copied.combinePtMutable (Ciphertext.addPtMutable context.calls) result pt)
    ct

/-- Null entries are skipped. One fresh result accumulates the remaining entries. -/
def evalAddMany (ciphertexts : List (Option Nat)) : Except Failure (Nat × Device cc) :=
  if ciphertexts.isEmpty then
    .error (.openFHE "EvalAddMany: input ciphertext vector is empty")
  else
    match ciphertexts.reduceOption with
    | [] => .error (.openFHE "EvalAddMany: input ciphertext vector has no non-null entries")
    | [first] => .ok (device.copyDeviceCiphertext first)
    | first :: second :: rest => do
        let (result, summed) ← context.evalAdd device first second
        return (result, ← rest.foldlM (fun current ct => context.evalAddInPlace current result ct)
          summed)

/-- The first entry that is not null accumulates the others and is put into slot 0. -/
def evalAddManyInPlace (ciphertexts : List (Option Nat)) :
    Except Failure (List (Option Nat) × Device cc) :=
  if ciphertexts.isEmpty then
    .error (.openFHE "EvalAddManyInPlace: input ciphertext vector is empty")
  else
    match ciphertexts.reduceOption with
    | [] =>
        .error (.openFHE "EvalAddManyInPlace: input ciphertext vector has no non-null entries")
    | first :: rest => do
        let summed ← rest.foldlM (fun current ct => context.evalAddInPlace current first ct) device
        return (some first :: ciphertexts.tail, summed)

def evalSub (ct1 ct2 : Nat) : Except Failure (Nat × Device cc) :=
  onCopy device (fun copied result => context.sub copied result ct2) ct1

def evalSubInPlace (ct1 ct2 : Nat) : Except Failure (Device cc) := context.sub device ct1 ct2

def evalSubPlaintext (ct pt : Nat) : Except Failure (Nat × Device cc) :=
  onCopy device
    (fun copied result => copied.combinePt (Ciphertext.subPt context.calls) result pt) ct

def evalPlaintextSub (pt ct : Nat) : Except Failure (Nat × Device cc) :=
  onCopy device
    (fun copied result => copied.combinePt
      (fun value operand => Ciphertext.addPt context.calls value.negate operand) result pt) ct

def evalSubScalar (ct : Nat) (scalar : F) : Except Failure (Nat × Device cc) :=
  onCopy device (Device.modify (context.addScalar (-scalar))) ct

def evalSubScalarInPlace (ct1 : Nat) (scalar : F) : Except Failure (Device cc) :=
  Device.modify (context.addScalar (-scalar)) device ct1

def evalScalarSub (scalar : F) (ct : Nat) : Except Failure (Nat × Device cc) :=
  onCopy device (Device.modify fun value => context.addScalar scalar value.negate) ct

def evalScalarSubInPlace (scalar : F) (ct1 : Nat) : Except Failure (Device cc) :=
  Device.modify (fun value => context.addScalar scalar value.negate) device ct1

def subMutable (receiver b : Nat) : Except Failure (Device cc) :=
  device.combineMutable (Ciphertext.subMutableSelf context.calls)
    (Ciphertext.subMutable context.calls) receiver b

def evalSubMutable (ct1 ct2 : Nat) : Except Failure (Nat × Device cc) :=
  onCopy device (fun copied result => context.subMutable copied result ct2) ct1

def evalSubMutableInPlace (ct1 ct2 : Nat) : Except Failure (Device cc) :=
  context.subMutable device ct1 ct2

def evalSubPlaintextMutable (ct pt : Nat) : Except Failure (Nat × Device cc) :=
  onCopy device
    (fun copied result => copied.combinePtMutable (Ciphertext.subPtMutable context.calls) result pt)
    ct

def evalPlaintextSubMutable (pt ct : Nat) : Except Failure (Nat × Device cc) :=
  context.evalPlaintextSub device pt ct

def mult (receiver b : Nat) : Except Failure (Device cc) :=
  device.combine (fun value => Ciphertext.multSelf context.keys context.calls value false)
    (fun value operand => Ciphertext.mult context.keys context.calls value operand false) receiver b

def evalMult (ct1 ct2 : Nat) : Except Failure (Nat × Device cc) :=
  onCopy device (fun copied result => context.mult copied result ct2) ct1

def evalMultPlaintext (ct1 pt : Nat) : Except Failure (Nat × Device cc) :=
  onCopy device
    (fun copied result => copied.combinePt (Ciphertext.multPt context.calls) result pt) ct1

def evalMultPlaintextInPlace (ct1 pt : Nat) : Except Failure (Device cc) :=
  device.combinePt (Ciphertext.multPt context.calls) ct1 pt

def evalMultScalar (ct1 : Nat) (scalar : F) : Except Failure (Nat × Device cc) :=
  onCopy device (Device.modify fun value => value.multScalar scalar false) ct1

def evalMultScalarInPlace (ct1 : Nat) (scalar : F) : Except Failure (Device cc) :=
  Device.modify (fun value => value.multScalar scalar false) device ct1

def multMutable (receiver b : Nat) : Except Failure (Device cc) :=
  device.combineMutable
    (fun value => Ciphertext.multMutableSelf context.keys context.calls value false)
    (fun value operand => Ciphertext.multMutable context.keys context.calls value operand false)
    receiver b

def evalMultMutable (ct1 ct2 : Nat) : Except Failure (Nat × Device cc) :=
  onCopy device (fun copied result => context.multMutable copied result ct2) ct1

def evalMultMutableInPlace (ct1 ct2 : Nat) : Except Failure (Device cc) :=
  context.multMutable device ct1 ct2

def evalMultPlaintextMutable (ct pt : Nat) : Except Failure (Nat × Device cc) :=
  onCopy device
    (fun copied result =>
      copied.combinePtMutable (Ciphertext.multPtMutable context.calls) result pt) ct

def evalSquare (ct : Nat) : Except Failure (Nat × Device cc) :=
  onCopy device
    (Device.modify fun value => value.square context.keys context.calls false) ct

def evalSquareInPlace (ct : Nat) : Except Failure (Device cc) :=
  Device.modify (fun value => value.square context.keys context.calls false) device ct

def evalSquareMutable (ct : Nat) : Except Failure (Nat × Device cc) := context.evalSquare device ct

def evalRotate (ciphertext : Nat) (index : Int) : Except Failure (Nat × Device cc) :=
  onCopy device (Device.modify (context.rotate index)) ciphertext

def evalRotateInPlace (ciphertext : Nat) (index : Int) : Except Failure (Device cc) :=
  Device.modify (context.rotate index) device ciphertext

def evalChebyshevSeriesOn (ct : Nat) (coeffs : List F) (a b : F) :
    Except Failure (Nat × Device cc) :=
  onCopy device (Device.modify (context.evalChebyshevSeries coeffs a b)) ct

def evalChebyshevSeriesInPlace (ct : Nat) (coeffs : List F) (a b : F) :
    Except Failure (Device cc) :=
  Device.modify (context.evalChebyshevSeries coeffs a b) device ct

def rescale (ciphertext : Nat) : Except Failure (Nat × Device cc) :=
  onCopy device (Device.modify fun value => .ok value.rescale) ciphertext

/-- The in-place form calls the internal rescale, which no technique turns off. -/
def rescaleInPlace (ciphertext : Nat) : Except Failure (Device cc) :=
  Device.modify (fun value => .ok value.rescaleInternal) device ciphertext

/-- The mode of the slot count is checked before the bootstrap runs. -/
def bootstrapChecked (who : String) (numIterations precision : Nat) (prescaled : Bool)
    (value : Ciphertext cc) : Except Failure (Ciphertext cc) := do
  context.checkBootstrapMode value.slots [.standard, .stcFirst] who
  context.Bootstrap value.slots prescaled numIterations precision value

def evalBootstrap (ciphertext numIterations precision : Nat) (prescaled : Bool) :
    Except Failure (Nat × Device cc) :=
  onCopy device
    (Device.modify (context.bootstrapChecked "EvalBootstrap" numIterations precision prescaled))
    ciphertext

def evalBootstrapInPlace (ciphertext numIterations precision : Nat) (prescaled : Bool) :
    Except Failure (Device cc) :=
  Device.modify
    (context.bootstrapChecked "EvalBootstrapInPlace" numIterations precision prescaled) device
    ciphertext

end DeviceContext
end Fideslib.Api
