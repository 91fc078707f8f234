/-
This file compares the in-place and mutable calls with the calls that return a fresh ciphertext.
-/

import Fideslib.Api.Evaluation
import Fideslib.CKKS.MutableForms

namespace Fideslib.Api

open Fideslib.CKKS

variable {F : Type} {cc : ContextData F}

/-- This names the receiver of an in-place call next to the device it leaves. -/
def attach (receiver : Nat) (outcome : Except Failure (Device cc)) :
    Except Failure (Nat × Device cc) := do
  return (receiver, ← outcome)

/-- This reads the ciphertext that a call leaves in its receiver. -/
def read (outcome : Except Failure (Nat × Device cc)) : Except Failure (Ciphertext cc) := do
  let (receiver, after) ← outcome
  return after.ciphertext receiver

/-- Only the receiver changes, and no plaintext does. -/
structure Unchanged (device after : Device cc) (receiver : Nat) : Prop where
  ciphertext : ∀ other, other ≠ receiver → after.ciphertext other = device.ciphertext other
  plaintext : after.plaintext = device.plaintext

/-- This compares a call that returns a fresh ciphertext with the other form of it. -/
structure FormsMatch (device : Device cc) (isMutable : Bool)
    (outOfPlace inPlace : Except Failure (Nat × Device cc)) : Prop where
  value : SameValue (read outOfPlace) (read inPlace)
  fresh : ∀ receiver after, outOfPlace = .ok (receiver, after) →
    receiver = device.next ∧ Unchanged device after receiver
  operands : isMutable = false → ∀ receiver after, inPlace = .ok (receiver, after) →
    Unchanged device after receiver

namespace Device

variable {device : Device cc} {receiver b ct pt : Nat}

@[simp] theorem storeCiphertext_ciphertext (device : Device cc) (receiver : Nat)
    (value : Ciphertext cc) : (device.storeCiphertext receiver value).ciphertext receiver = value := by
  simp [storeCiphertext]

theorem storeCiphertext_other {other : Nat} (distinct : other ≠ receiver)
    (value : Ciphertext cc) :
    (device.storeCiphertext receiver value).ciphertext other = device.ciphertext other := by
  simp [storeCiphertext, distinct]

@[simp] theorem storeCiphertext_plaintext (device : Device cc) (receiver : Nat)
    (value : Ciphertext cc) :
    (device.storeCiphertext receiver value).plaintext = device.plaintext := rfl

@[simp] theorem copyDeviceCiphertext_fst (device : Device cc) (ct : Nat) :
    (device.copyDeviceCiphertext ct).1 = device.next := rfl

@[simp] theorem copyDeviceCiphertext_fresh (device : Device cc) (ct : Nat) :
    (device.copyDeviceCiphertext ct).2.ciphertext device.next = device.ciphertext ct :=
  storeCiphertext_ciphertext device device.next (device.ciphertext ct)

@[simp] theorem copyDeviceCiphertext_plaintext (device : Device cc) (ct : Nat) :
    (device.copyDeviceCiphertext ct).2.plaintext = device.plaintext := rfl

theorem copyDeviceCiphertext_unchanged (device : Device cc) (ct : Nat) :
    Unchanged device (device.copyDeviceCiphertext ct).2 device.next where
  ciphertext := fun _ distinct => storeCiphertext_other distinct (device.ciphertext ct)
  plaintext := rfl

theorem modify_value (change : Ciphertext cc → Except Failure (Ciphertext cc))
    (device : Device cc) (receiver : Nat) :
    (fun after => after.ciphertext receiver) <$> modify change device receiver =
      change (device.ciphertext receiver) := by
  cases changed : change (device.ciphertext receiver) with
  | error failure => simp [modify, changed]
  | ok value => simp [modify, changed]

theorem modify_unchanged {after : Device cc}
    {change : Ciphertext cc → Except Failure (Ciphertext cc)}
    (done : modify change device receiver = .ok after) : Unchanged device after receiver := by
  cases changed : change (device.ciphertext receiver) with
  | error failure => simp [modify, changed] at done
  | ok value =>
      have same : device.storeCiphertext receiver value = after := by
        simpa [modify, changed] using done
      rw [← same]
      exact ⟨fun _ distinct => storeCiphertext_other distinct value, rfl⟩

/-- An aliased form that agrees with the other one may be replaced by it. -/
theorem combine_eq_modify {aliased : Ciphertext cc → Except Failure (Ciphertext cc)}
    {apart : Ciphertext cc → Ciphertext cc → Except Failure (Ciphertext cc)}
    (agree : ∀ value, aliased value = apart value value) (device : Device cc) (receiver b : Nat) :
    combine aliased apart device receiver b =
      modify (fun value => apart value (device.ciphertext b)) device receiver := by
  by_cases same : receiver = b
  · subst same
    simp [combine, modify, agree]
  · rw [combine, if_neg same]

/-- The receiver of a mutable operation holds the first part of its result. -/
theorem combineMutable_value (aliased : Ciphertext cc → Except Failure (Ciphertext cc))
    (apart : Ciphertext cc → Ciphertext cc → Except Failure (Ciphertext cc × Ciphertext cc))
    (device : Device cc) (receiver b : Nat) :
    (fun after => after.ciphertext receiver) <$> combineMutable aliased apart device receiver b =
      if receiver = b then aliased (device.ciphertext receiver)
      else Prod.fst <$> apart (device.ciphertext receiver) (device.ciphertext b) := by
  by_cases same : receiver = b
  · rw [combineMutable, if_pos same, if_pos same, modify_value]
  · rw [combineMutable, if_neg same, if_neg same]
    cases apart (device.ciphertext receiver) (device.ciphertext b) with
    | error failure => simp
    | ok both => simp

theorem combinePtMutable_value
    (change : Ciphertext cc → Plaintext cc → Except Failure (Ciphertext cc × Plaintext cc))
    (device : Device cc) (receiver pt : Nat) :
    (fun after => after.ciphertext receiver) <$> combinePtMutable change device receiver pt =
      Prod.fst <$> change (device.ciphertext receiver) (device.plaintext pt) := by
  cases changed : change (device.ciphertext receiver) (device.plaintext pt) with
  | error failure => simp [combinePtMutable, changed]
  | ok both => simp [combinePtMutable, changed]

end Device

variable {device : Device cc} {receiver ct : Nat}

/-- The fresh ciphertext is what the operation leaves in the copy. -/
theorem read_onCopy (operate : Device cc → Nat → Except Failure (Device cc)) :
    read (DeviceContext.onCopy device operate ct) =
      (fun after => after.ciphertext device.next) <$>
        operate (device.copyDeviceCiphertext ct).2 device.next := by
  cases done : operate (device.copyDeviceCiphertext ct).2 device.next with
  | error failure => simp [read, DeviceContext.onCopy, done]
  | ok after => simp [read, DeviceContext.onCopy, done]

theorem read_attach (outcome : Except Failure (Device cc)) :
    read (attach receiver outcome) = (fun after => after.ciphertext receiver) <$> outcome := by
  cases outcome with
  | error failure => simp [read, attach]
  | ok after => simp [read, attach]

/-- A modified copy leaves every object of the device as it was. -/
theorem onCopy_fresh {change : Ciphertext cc → Except Failure (Ciphertext cc)}
    {operate : Device cc → Nat → Except Failure (Device cc)} {after : Device cc}
    (operated : operate (device.copyDeviceCiphertext ct).2 device.next =
      Device.modify change (device.copyDeviceCiphertext ct).2 device.next)
    (done : DeviceContext.onCopy device operate ct = .ok (receiver, after)) :
    receiver = device.next ∧ Unchanged device after receiver := by
  cases changed : Device.modify change (device.copyDeviceCiphertext ct).2 device.next with
  | error failure => simp [DeviceContext.onCopy, operated, changed] at done
  | ok modified =>
      obtain ⟨rfl, rfl⟩ : device.next = receiver ∧ modified = after := by
        simpa [DeviceContext.onCopy, operated, changed] using done
      have copied := Device.copyDeviceCiphertext_unchanged device ct
      have last := Device.modify_unchanged changed
      exact ⟨rfl, fun other distinct => (last.ciphertext other distinct).trans
        (copied.ciphertext other distinct), last.plaintext.trans copied.plaintext⟩

/-- Both forms of a call apply one change to the first operand. -/
theorem formsMatch_of_modify {change changeInPlace : Ciphertext cc → Except Failure (Ciphertext cc)}
    (operate : Device cc → Nat → Except Failure (Device cc)) {inPlace : Except Failure (Device cc)}
    (operated : operate (device.copyDeviceCiphertext ct).2 device.next =
      Device.modify change (device.copyDeviceCiphertext ct).2 device.next)
    (modified : inPlace = Device.modify changeInPlace device ct)
    (agree : SameValue (change (device.ciphertext ct)) (changeInPlace (device.ciphertext ct)))
    (isMutable : Bool) :
    FormsMatch device isMutable (DeviceContext.onCopy device operate ct) (attach ct inPlace) where
  value := by
    rw [read_onCopy, read_attach, operated, modified, Device.modify_value, Device.modify_value,
      Device.copyDeviceCiphertext_fresh]
    exact agree
  fresh := fun _ _ done => onCopy_fresh operated done
  operands := by
    intro _ receiver after done
    cases changed : Device.modify changeInPlace device ct with
    | error failure => simp [attach, modified, changed] at done
    | ok result =>
        obtain ⟨rfl, rfl⟩ : ct = receiver ∧ result = after := by
          simpa [attach, modified, changed] using done
        exact Device.modify_unchanged changed

/-- A mutable call only has to return the value of the other form. -/
theorem formsMatch_of_value {change : Ciphertext cc → Except Failure (Ciphertext cc)}
    (operate : Device cc → Nat → Except Failure (Device cc))
    {inPlace : Except Failure (Nat × Device cc)}
    (operated : operate (device.copyDeviceCiphertext ct).2 device.next =
      Device.modify change (device.copyDeviceCiphertext ct).2 device.next)
    (agree : SameValue (change (device.ciphertext ct)) (read inPlace)) :
    FormsMatch device true (DeviceContext.onCopy device operate ct) inPlace where
  value := by
    rw [read_onCopy, operated, Device.modify_value, Device.copyDeviceCiphertext_fresh]
    exact agree
  fresh := fun _ _ done => onCopy_fresh operated done
  operands := by simp

/-- A mutable form that is the other call itself agrees with it. -/
theorem formsMatch_self {change : Ciphertext cc → Except Failure (Ciphertext cc)}
    (operate : Device cc → Nat → Except Failure (Device cc))
    (operated : operate (device.copyDeviceCiphertext ct).2 device.next =
      Device.modify change (device.copyDeviceCiphertext ct).2 device.next) :
    FormsMatch device true (DeviceContext.onCopy device operate ct)
      (DeviceContext.onCopy device operate ct) where
  value := SameValue.of_eq rfl
  fresh := fun _ _ done => onCopy_fresh operated done
  operands := by simp

end Fideslib.Api
