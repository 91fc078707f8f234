/-
This file translates the bookkeeping of the ciphertext cache.
-/

import Mathlib.Data.Finset.Basic
import Fideslib.Library.KeyedMap

namespace Fideslib.Residency

/-- A handle names one device object, and zero is the null handle. -/
abbrev Handle := UInt32

/-- This budget means that the cache is unlimited. -/
def sizeMax : Nat := 2 ^ 64 - 1

/-- A footprint is what the two polynomials of a ciphertext hold on the device. -/
structure Footprint where
  limbBytes : Nat
  -- The limbs that a reload generates again, since a dropped level frees nothing before it.
  reloadBytes : Nat
  c0ModUp : Bool
  c1ModUp : Bool
  deriving DecidableEq

/-- A device ciphertext holds its limbs or a host snapshot of them. -/
structure DeviceCiphertext extends Footprint where
  offloaded : Bool
  deriving DecidableEq

namespace DeviceCiphertext

def isOffloaded (device : DeviceCiphertext) : Bool := device.offloaded

/-- A ciphertext in the extended basis cannot be parked by the cache. -/
def isModUp (device : DeviceCiphertext) : Bool := device.c0ModUp || device.c1ModUp

def offload (device : DeviceCiphertext) : DeviceCiphertext :=
  if device.offloaded then device else { device with limbBytes := 0, offloaded := true }

def reload (device : DeviceCiphertext) : DeviceCiphertext :=
  if device.offloaded then { device with limbBytes := device.reloadBytes, offloaded := false }
  else device

@[simp] theorem offload_offloaded (device : DeviceCiphertext) :
    device.offload.offloaded = true := by
  unfold offload
  split
  case isTrue parked => exact parked
  case isFalse => rfl

@[simp] theorem reload_offloaded (device : DeviceCiphertext) :
    device.reload.offloaded = false := by
  unfold reload
  split
  case isTrue => rfl
  case isFalse held => exact Bool.eq_false_iff.mpr held

@[simp] theorem offload_isModUp (device : DeviceCiphertext) :
    device.offload.isModUp = device.isModUp := by
  unfold offload
  split <;> rfl

/-- A second offload changes nothing. -/
@[simp] theorem offload_offload (device : DeviceCiphertext) :
    device.offload.offload = device.offload := by
  rw [offload, if_pos device.offload_offloaded]

end DeviceCiphertext

/-- An entry records the bytes of the last use of a device ciphertext. -/
structure CiphertextCacheEntry where
  bytes : Nat
  resident : Bool
  deriving DecidableEq

/-- An offloaded entry counts for nothing. -/
def CiphertextCacheEntry.residentBytes (entry : CiphertextCacheEntry) : Nat :=
  if entry.resident then entry.bytes else 0

/-- The ciphertext cache consists of the registry and of the fields that track it. -/
structure CiphertextCache where
  deviceCiphertexts : AList fun _ : Handle => DeviceCiphertext
  ciphertextCacheBytes : Nat
  ciphertextResidentBytes : Nat
  ciphertextCache : AList fun _ : Handle => CiphertextCacheEntry
  -- The most recently used handle comes first, and an entry's iterator is its handle's place.
  ciphertextLru : List Handle
  ciphertextPinned : Finset Handle

namespace CiphertextCache

/-- A new cache is empty and unlimited. -/
def initial : CiphertextCache :=
  ⟨∅, sizeMax, 0, ∅, [], ∅⟩

def trackCiphertext (handle : Handle) (bytes : Nat) (cache : CiphertextCache) : CiphertextCache :=
  { cache with
    ciphertextLru := handle :: cache.ciphertextLru
    ciphertextCache := KeyedMap.emplace handle ⟨bytes, true⟩ cache.ciphertextCache
    ciphertextResidentBytes := cache.ciphertextResidentBytes + bytes }

def untrackCiphertext (handle : Handle) (cache : CiphertextCache) : CiphertextCache :=
  match cache.ciphertextCache.lookup handle with
  | none => cache
  | some entry =>
      let released := if entry.resident then
        { cache with
          ciphertextResidentBytes := cache.ciphertextResidentBytes -
            min entry.bytes cache.ciphertextResidentBytes
          ciphertextLru := cache.ciphertextLru.erase handle }
      else cache
      { released with
        ciphertextPinned := released.ciphertextPinned.erase handle
        ciphertextCache := released.ciphertextCache.erase handle }

def touchCiphertext (handle : Handle) (bytes : Nat) (cache : CiphertextCache) : CiphertextCache :=
  match cache.ciphertextCache.lookup handle with
  | none => cache
  | some entry =>
      let renewed := if entry.resident then
        { cache with
          ciphertextResidentBytes := cache.ciphertextResidentBytes -
            min entry.bytes cache.ciphertextResidentBytes
          ciphertextLru := handle :: cache.ciphertextLru.erase handle }
      else { cache with ciphertextLru := handle :: cache.ciphertextLru }
      { renewed with
        ciphertextResidentBytes := renewed.ciphertextResidentBytes + bytes
        ciphertextCache := renewed.ciphertextCache.insert handle ⟨bytes, true⟩ }

def markCiphertextOffloaded (handle : Handle) (cache : CiphertextCache) : CiphertextCache :=
  match cache.ciphertextCache.lookup handle with
  | none => cache
  | some entry =>
      if entry.resident then
        { cache with
          ciphertextResidentBytes := cache.ciphertextResidentBytes -
            min entry.bytes cache.ciphertextResidentBytes
          ciphertextLru := cache.ciphertextLru.erase handle
          ciphertextCache := cache.ciphertextCache.insert handle ⟨entry.bytes, false⟩ }
      else cache

/-- The registry takes a new state of one device ciphertext. -/
def setDevice (handle : Handle) (device : DeviceCiphertext) (cache : CiphertextCache) :
    CiphertextCache :=
  { cache with deviceCiphertexts := cache.deviceCiphertexts.insert handle device }

def offloadCiphertextForCache (handle : Handle) (cache : CiphertextCache) :
    Bool × CiphertextCache :=
  match cache.ciphertextCache.lookup handle with
  | none => (false, cache)
  | some entry =>
      if entry.resident then
        match cache.deviceCiphertexts.lookup handle with
        | none => (false, cache)
        | some device =>
            if device.isOffloaded then (true, cache.markCiphertextOffloaded handle)
            else if device.isModUp then (false, cache)
            else (true, (cache.setDevice handle device.offload).markCiphertextOffloaded handle)
      else (false, cache)

/-- This loop offloads the candidates in order until the budget is met. -/
def enforceOver (protect : Handle) : List Handle → CiphertextCache → CiphertextCache
  | [], cache => cache
  | handle :: rest, cache =>
      if cache.ciphertextResidentBytes ≤ cache.ciphertextCacheBytes then cache
      else if handle = protect ∨ handle ∈ cache.ciphertextPinned then enforceOver protect rest cache
      else enforceOver protect rest (cache.offloadCiphertextForCache handle).2

def enforceCiphertextBudget (protect : Handle) (cache : CiphertextCache) : CiphertextCache :=
  if cache.ciphertextCacheBytes = sizeMax ∨
      cache.ciphertextResidentBytes ≤ cache.ciphertextCacheBytes then cache
  else enforceOver protect cache.ciphertextLru.reverse cache

def setCiphertextCache (bytes : Nat) (cache : CiphertextCache) : CiphertextCache :=
  { cache with ciphertextCacheBytes := bytes }.enforceCiphertextBudget 0

/-- This loop offloads every handle of a list that is not pinned. -/
def offloadOver : List Handle → CiphertextCache → CiphertextCache
  | [], cache => cache
  | handle :: rest, cache =>
      if handle ∈ cache.ciphertextPinned then offloadOver rest cache
      else offloadOver rest (cache.offloadCiphertextForCache handle).2

def offloadCiphertexts (cache : CiphertextCache) : CiphertextCache :=
  offloadOver cache.ciphertextLru cache

def offloadCiphertext (handle : Handle) (cache : CiphertextCache) : CiphertextCache :=
  if handle = 0 then cache
  else match cache.deviceCiphertexts.lookup handle with
    | none => cache
    | some device => (cache.setDevice handle device.offload).markCiphertextOffloaded handle

def reloadCiphertext (handle : Handle) (cache : CiphertextCache) : CiphertextCache :=
  if handle = 0 then cache
  else match cache.deviceCiphertexts.lookup handle with
    | none => cache
    | some device =>
        if device.isOffloaded then
          (cache.setDevice handle device.reload).touchCiphertext handle device.reload.limbBytes
        else cache

/-- The registration emplaces the new object and starts to track it. -/
def registerDeviceCiphertext (handle : Handle) (device : DeviceCiphertext)
    (cache : CiphertextCache) : CiphertextCache :=
  { cache with
    deviceCiphertexts := KeyedMap.emplace handle device cache.deviceCiphertexts
    }.trackCiphertext handle device.limbBytes

/-- The accessor reloads the object and marks it as used, and an unknown handle throws. -/
def getDeviceCiphertext (handle : Handle) (cache : CiphertextCache) :
    Option (DeviceCiphertext × CiphertextCache) :=
  (cache.deviceCiphertexts.lookup handle).map fun device =>
    (device.reload,
      (cache.setDevice handle device.reload).touchCiphertext handle device.reload.limbBytes)

def evictDeviceCiphertext (handle : Handle) (cache : CiphertextCache) : Bool × CiphertextCache :=
  let untracked := cache.untrackCiphertext handle
  ((untracked.deviceCiphertexts.lookup handle).isSome,
    { untracked with deviceCiphertexts := untracked.deviceCiphertexts.erase handle })

/-- A kernel changes the limbs that a device ciphertext holds. -/
def compute (handle : Handle) (footprint : Footprint) (cache : CiphertextCache) :
    CiphertextCache :=
  match cache.deviceCiphertexts.lookup handle with
  | none => cache
  | some device => cache.setDevice handle ⟨footprint, device.offloaded⟩

variable {cache : CiphertextCache} {handle : Handle}

theorem untrackCiphertext_resident {bytes : Nat}
    (stored : cache.ciphertextCache.lookup handle = some ⟨bytes, true⟩) :
    cache.untrackCiphertext handle =
      { cache with
        ciphertextResidentBytes := cache.ciphertextResidentBytes -
          min bytes cache.ciphertextResidentBytes
        ciphertextLru := cache.ciphertextLru.erase handle
        ciphertextPinned := cache.ciphertextPinned.erase handle
        ciphertextCache := cache.ciphertextCache.erase handle } := by
  rw [untrackCiphertext, stored]
  rfl

theorem untrackCiphertext_offloaded {bytes : Nat}
    (stored : cache.ciphertextCache.lookup handle = some ⟨bytes, false⟩) :
    cache.untrackCiphertext handle =
      { cache with
        ciphertextPinned := cache.ciphertextPinned.erase handle
        ciphertextCache := cache.ciphertextCache.erase handle } := by
  rw [untrackCiphertext, stored]
  rfl

theorem untrackCiphertext_unknown (unknown : cache.ciphertextCache.lookup handle = none) :
    cache.untrackCiphertext handle = cache := by
  rw [untrackCiphertext, unknown]

theorem touchCiphertext_resident {old : Nat} (bytes : Nat)
    (stored : cache.ciphertextCache.lookup handle = some ⟨old, true⟩) :
    cache.touchCiphertext handle bytes =
      { cache with
        ciphertextResidentBytes := cache.ciphertextResidentBytes -
          min old cache.ciphertextResidentBytes + bytes
        ciphertextLru := handle :: cache.ciphertextLru.erase handle
        ciphertextCache := cache.ciphertextCache.insert handle ⟨bytes, true⟩ } := by
  rw [touchCiphertext, stored]
  rfl

theorem touchCiphertext_offloaded {old : Nat} (bytes : Nat)
    (stored : cache.ciphertextCache.lookup handle = some ⟨old, false⟩) :
    cache.touchCiphertext handle bytes =
      { cache with
        ciphertextResidentBytes := cache.ciphertextResidentBytes + bytes
        ciphertextLru := handle :: cache.ciphertextLru
        ciphertextCache := cache.ciphertextCache.insert handle ⟨bytes, true⟩ } := by
  rw [touchCiphertext, stored]
  rfl

theorem markCiphertextOffloaded_resident {bytes : Nat}
    (stored : cache.ciphertextCache.lookup handle = some ⟨bytes, true⟩) :
    cache.markCiphertextOffloaded handle =
      { cache with
        ciphertextResidentBytes := cache.ciphertextResidentBytes -
          min bytes cache.ciphertextResidentBytes
        ciphertextLru := cache.ciphertextLru.erase handle
        ciphertextCache := cache.ciphertextCache.insert handle ⟨bytes, false⟩ } := by
  rw [markCiphertextOffloaded, stored]
  rfl

theorem markCiphertextOffloaded_offloaded {bytes : Nat}
    (stored : cache.ciphertextCache.lookup handle = some ⟨bytes, false⟩) :
    cache.markCiphertextOffloaded handle = cache := by
  rw [markCiphertextOffloaded, stored]
  rfl

@[simp] theorem markCiphertextOffloaded_deviceCiphertexts (handle : Handle) :
    (cache.markCiphertextOffloaded handle).deviceCiphertexts = cache.deviceCiphertexts := by
  unfold markCiphertextOffloaded
  split
  · rfl
  · split <;> rfl

@[simp] theorem markCiphertextOffloaded_ciphertextPinned (handle : Handle) :
    (cache.markCiphertextOffloaded handle).ciphertextPinned = cache.ciphertextPinned := by
  unfold markCiphertextOffloaded
  split
  · rfl
  · split <;> rfl

@[simp] theorem markCiphertextOffloaded_ciphertextCacheBytes (handle : Handle) :
    (cache.markCiphertextOffloaded handle).ciphertextCacheBytes = cache.ciphertextCacheBytes := by
  unfold markCiphertextOffloaded
  split
  · rfl
  · split <;> rfl

theorem markCiphertextOffloaded_ciphertextCache {other : Handle} (different : other ≠ handle) :
    (cache.markCiphertextOffloaded handle).ciphertextCache.lookup other =
      cache.ciphertextCache.lookup other := by
  unfold markCiphertextOffloaded
  split
  · rfl
  · split
    · exact AList.lookup_insert_ne different
    · rfl

@[simp] theorem touchCiphertext_deviceCiphertexts (handle : Handle) (bytes : Nat) :
    (cache.touchCiphertext handle bytes).deviceCiphertexts = cache.deviceCiphertexts := by
  unfold touchCiphertext
  split
  · rfl
  · dsimp only
    split <;> rfl

@[simp] theorem untrackCiphertext_deviceCiphertexts (handle : Handle) :
    (cache.untrackCiphertext handle).deviceCiphertexts = cache.deviceCiphertexts := by
  unfold untrackCiphertext
  split
  · rfl
  · dsimp only
    split <;> rfl

end CiphertextCache
end Fideslib.Residency
