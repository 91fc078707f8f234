/-
This file translates the bookkeeping of the plaintext cache.
-/

import Fideslib.Residency.CiphertextCache

namespace Fideslib.Residency

/-- A name stands for the address of one API object, and no address is used twice. -/
abbrev Name := Nat

/-- An API plaintext keeps its host encoding next to the handle of its device copy. -/
structure PlaintextImpl (Encoding : Type) where
  cpu : Encoding
  gpu : Handle
  loaded : Bool
  -- A plaintext that a decryption makes has no parent context.
  parentContext : Bool
  deriving DecidableEq

/-- An entry points weakly at the plaintext that owns the handle. -/
structure PlaintextCacheEntry where
  owner : Name
  bytes : Nat
  deriving DecidableEq

/-- The plaintext cache consists of the registry, its bookkeeping and the live plaintexts. -/
structure PlaintextCache (Encoding : Type) where
  -- A device plaintext only shows its bytes.
  devicePlaintexts : AList fun _ : Handle => Nat
  plaintextCacheBytes : Nat
  plaintextResidentBytes : Nat
  plaintextCache : AList fun _ : Handle => PlaintextCacheEntry
  plaintextLru : List Handle
  plaintextPinned : Finset Handle
  plaintextCacheHold : Nat
  owners : AList fun _ : Name => PlaintextImpl Encoding

namespace PlaintextCache

variable {Encoding : Type}

/-- A new cache is empty and unlimited. -/
def initial : PlaintextCache Encoding :=
  ⟨∅, sizeMax, 0, ∅, [], ∅, 0, ∅⟩

/-- A live plaintext takes a new state. -/
def setOwner (name : Name) (owner : PlaintextImpl Encoding) (cache : PlaintextCache Encoding) :
    PlaintextCache Encoding :=
  { cache with owners := cache.owners.insert name owner }

def trackPlaintext (handle : Handle) (owner : Name) (bytes : Nat)
    (cache : PlaintextCache Encoding) : PlaintextCache Encoding :=
  { cache with
    plaintextLru := handle :: cache.plaintextLru
    plaintextCache := KeyedMap.emplace handle ⟨owner, bytes⟩ cache.plaintextCache
    plaintextResidentBytes := cache.plaintextResidentBytes + bytes }

def untrackPlaintext (handle : Handle) (cache : PlaintextCache Encoding) :
    PlaintextCache Encoding :=
  match cache.plaintextCache.lookup handle with
  | none => cache
  | some entry =>
      { cache with
        plaintextResidentBytes := cache.plaintextResidentBytes -
          min entry.bytes cache.plaintextResidentBytes
        plaintextLru := cache.plaintextLru.erase handle
        plaintextPinned := cache.plaintextPinned.erase handle
        plaintextCache := cache.plaintextCache.erase handle }

def touchPlaintext (handle : Handle) (cache : PlaintextCache Encoding) : PlaintextCache Encoding :=
  match cache.plaintextCache.lookup handle with
  | none => cache
  | some _ => { cache with plaintextLru := handle :: cache.plaintextLru.erase handle }

def registerDevicePlaintext (handle : Handle) (bytes : Nat) (cache : PlaintextCache Encoding) :
    PlaintextCache Encoding :=
  { cache with devicePlaintexts := KeyedMap.emplace handle bytes cache.devicePlaintexts }

/-- The accessor marks the object as used, and an unknown handle throws. -/
def getDevicePlaintext (handle : Handle) (cache : PlaintextCache Encoding) :
    Option (PlaintextCache Encoding) :=
  (cache.devicePlaintexts.lookup handle).map fun _ => cache.touchPlaintext handle

def evictDevicePlaintext (handle : Handle) (cache : PlaintextCache Encoding) :
    Bool × PlaintextCache Encoding :=
  let untracked := cache.untrackPlaintext handle
  ((untracked.devicePlaintexts.lookup handle).isSome,
    { untracked with devicePlaintexts := untracked.devicePlaintexts.erase handle })

/-- A live owner of the entry is marked as not loaded. -/
def unloadOwner (entry : PlaintextCacheEntry) (cache : PlaintextCache Encoding) :
    PlaintextCache Encoding :=
  match cache.owners.lookup entry.owner with
  | none => cache
  | some owner => cache.setOwner entry.owner { owner with loaded := false, gpu := 0 }

def offloadPlaintextHandle (handle : Handle) (cache : PlaintextCache Encoding) :
    Bool × PlaintextCache Encoding :=
  match cache.plaintextCache.lookup handle with
  | none => (false, cache)
  | some entry => (cache.unloadOwner entry).evictDevicePlaintext handle

/-- The victim is the least recently used handle that may go, and zero stands for none. -/
def victim (protect : Handle) (cache : PlaintextCache Encoding) : Handle :=
  (cache.plaintextLru.reverse.find? fun handle =>
    handle ≠ protect ∧ handle ∉ cache.plaintextPinned).getD 0

@[simp] theorem unloadOwner_plaintextLru (entry : PlaintextCacheEntry)
    (cache : PlaintextCache Encoding) :
    (cache.unloadOwner entry).plaintextLru = cache.plaintextLru := by
  unfold unloadOwner
  split <;> rfl

@[simp] theorem unloadOwner_plaintextCache (entry : PlaintextCacheEntry)
    (cache : PlaintextCache Encoding) :
    (cache.unloadOwner entry).plaintextCache = cache.plaintextCache := by
  unfold unloadOwner
  split <;> rfl

@[simp] theorem unloadOwner_devicePlaintexts (entry : PlaintextCacheEntry)
    (cache : PlaintextCache Encoding) :
    (cache.unloadOwner entry).devicePlaintexts = cache.devicePlaintexts := by
  unfold unloadOwner
  split <;> rfl

/-- A tracked handle that is offloaded leaves the recency list. -/
theorem offloadPlaintextHandle_plaintextLru {handle : Handle} {cache : PlaintextCache Encoding}
    (offloads : (cache.offloadPlaintextHandle handle).1 = true) :
    (cache.offloadPlaintextHandle handle).2.plaintextLru = cache.plaintextLru.erase handle := by
  unfold offloadPlaintextHandle at offloads ⊢
  split at offloads
  case h_1 => cases offloads
  case h_2 entry stored =>
    simp [evictDevicePlaintext, untrackPlaintext, stored]

/-- A chosen victim stands in the recency list. -/
theorem victim_mem {protect : Handle} {cache : PlaintextCache Encoding}
    (chosen : cache.victim protect ≠ 0) : cache.victim protect ∈ cache.plaintextLru := by
  unfold victim at chosen ⊢
  cases found : cache.plaintextLru.reverse.find? fun handle =>
      handle ≠ protect ∧ handle ∉ cache.plaintextPinned with
  | none =>
      rw [found] at chosen
      exact absurd rfl chosen
  | some handle => exact List.mem_reverse.mp (List.mem_of_find?_eq_some found)

/-- This loop evicts one victim after the other until the budget is met. -/
def enforceLoop (protect : Handle) (cache : PlaintextCache Encoding) : PlaintextCache Encoding :=
  if cache.plaintextCacheBytes < cache.plaintextResidentBytes then
    if _chosen : cache.victim protect = 0 then cache
    else if _offloads : (cache.offloadPlaintextHandle (cache.victim protect)).1 = true then
      enforceLoop protect (cache.offloadPlaintextHandle (cache.victim protect)).2
    else (cache.offloadPlaintextHandle (cache.victim protect)).2
  else cache
termination_by cache.plaintextLru.length
decreasing_by
  rw [offloadPlaintextHandle_plaintextLru _offloads, List.length_erase_of_mem (victim_mem _chosen)]
  exact Nat.sub_lt (List.length_pos_of_mem (victim_mem _chosen)) Nat.one_pos

def enforcePlaintextBudget (protect : Handle) (cache : PlaintextCache Encoding) :
    PlaintextCache Encoding :=
  if cache.plaintextCacheBytes = sizeMax ∨ 0 < cache.plaintextCacheHold then cache
  else cache.enforceLoop protect

def setPlaintextCache (bytes : Nat) (cache : PlaintextCache Encoding) : PlaintextCache Encoding :=
  { cache with plaintextCacheBytes := bytes }.enforcePlaintextBudget 0

/-- This loop offloads every handle of a list. -/
def offloadOver : List Handle → PlaintextCache Encoding → PlaintextCache Encoding
  | [], cache => cache
  | handle :: rest, cache => offloadOver rest (cache.offloadPlaintextHandle handle).2

/-- The unpinned handles are collected before the first one is offloaded. -/
def offloadPlaintexts (cache : PlaintextCache Encoding) : PlaintextCache Encoding :=
  offloadOver (cache.plaintextCache.keys.filter (· ∉ cache.plaintextPinned)) cache

/-- The guard of an operation defers every eviction. -/
def openHold (cache : PlaintextCache Encoding) : PlaintextCache Encoding :=
  { cache with plaintextCacheHold := cache.plaintextCacheHold + 1 }

/-- The end of the outermost guard enforces the budget. -/
def closeHold (cache : PlaintextCache Encoding) : PlaintextCache Encoding :=
  let released := { cache with plaintextCacheHold := cache.plaintextCacheHold - 1 }
  if released.plaintextCacheHold = 0 then released.enforcePlaintextBudget 0 else released

/-- The destructor evicts the device copy of a loaded plaintext that knows its context. -/
def destroyPlaintext (name : Name) (cache : PlaintextCache Encoding) : PlaintextCache Encoding :=
  match cache.owners.lookup name with
  | none => cache
  | some owner =>
      let released := if owner.loaded ∧ owner.gpu ≠ 0 ∧ owner.parentContext then
        (cache.evictDevicePlaintext owner.gpu).2
      else cache
      { released with owners := released.owners.erase name }

end PlaintextCache
end Fideslib.Residency
