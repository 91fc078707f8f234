/-
This file proves that every operation of the ciphertext cache keeps its books.
-/

import Fideslib.Residency.CiphertextCache

namespace Fideslib.Residency
namespace CiphertextCache

/-- The books agree with the registry and with the device objects. -/
structure Books (cache : CiphertextCache) : Prop where
  bytes : cache.ciphertextResidentBytes =
    KeyedMap.total CiphertextCacheEntry.residentBytes cache.ciphertextCache
  lruNodup : cache.ciphertextLru.Nodup
  lruResident : ∀ handle, handle ∈ cache.ciphertextLru ↔
    ∃ entry, cache.ciphertextCache.lookup handle = some entry ∧ entry.resident = true
  residency : ∀ handle entry device, cache.ciphertextCache.lookup handle = some entry →
    cache.deviceCiphertexts.lookup handle = some device →
    (entry.resident = true ↔ device.isOffloaded = false)
  tracked : ∀ handle, (cache.ciphertextCache.lookup handle).isSome =
    (cache.deviceCiphertexts.lookup handle).isSome
  pinned : ∀ handle ∈ cache.ciphertextPinned, (cache.deviceCiphertexts.lookup handle).isSome

theorem initial_books : initial.Books where
  bytes := rfl
  lruNodup := List.nodup_nil
  lruResident := by simp [initial]
  residency := by simp [initial]
  tracked := by simp [initial]
  pinned := by simp [initial]

variable {cache next : CiphertextCache}

/-- One handle changes, and every other handle keeps its place in the books. -/
structure ChangesOnly (handle : Handle) (cache next : CiphertextCache) : Prop where
  entries : ∀ other, other ≠ handle →
    next.ciphertextCache.lookup other = cache.ciphertextCache.lookup other
  devices : ∀ other, other ≠ handle →
    next.deviceCiphertexts.lookup other = cache.deviceCiphertexts.lookup other
  listed : ∀ other, other ≠ handle → (other ∈ next.ciphertextLru ↔ other ∈ cache.ciphertextLru)
  pins : ∀ other, other ≠ handle → other ∈ next.ciphertextPinned → other ∈ cache.ciphertextPinned

theorem changesOnly_insert {handle : Handle} {entry : CiphertextCacheEntry}
    {device : DeviceCiphertext} {bytes : Nat} {lru : List Handle}
    (listed : ∀ other, other ≠ handle → (other ∈ lru ↔ other ∈ cache.ciphertextLru)) :
    ChangesOnly handle cache
      { cache with
        ciphertextCache := cache.ciphertextCache.insert handle entry
        deviceCiphertexts := cache.deviceCiphertexts.insert handle device
        ciphertextResidentBytes := bytes
        ciphertextLru := lru } where
  entries _ different := AList.lookup_insert_ne different
  devices _ different := AList.lookup_insert_ne different
  listed := listed
  pins _ _ member := member

theorem changesOnly_device {handle : Handle} {device : DeviceCiphertext} :
    ChangesOnly handle cache (cache.setDevice handle device) where
  entries _ _ := rfl
  devices _ different := AList.lookup_insert_ne different
  listed _ _ := Iff.rfl
  pins _ _ member := member

/-- The books hold again once the changed handle is right. -/
theorem Books.change (books : cache.Books) {handle : Handle} (only : ChangesOnly handle cache next)
    (bytes : next.ciphertextResidentBytes =
      KeyedMap.total CiphertextCacheEntry.residentBytes next.ciphertextCache)
    (nodup : next.ciphertextLru.Nodup)
    (listed : handle ∈ next.ciphertextLru ↔
      ∃ entry, next.ciphertextCache.lookup handle = some entry ∧ entry.resident = true)
    (residency : ∀ entry device, next.ciphertextCache.lookup handle = some entry →
      next.deviceCiphertexts.lookup handle = some device →
      (entry.resident = true ↔ device.isOffloaded = false))
    (tracked : (next.ciphertextCache.lookup handle).isSome =
      (next.deviceCiphertexts.lookup handle).isSome)
    (pinned : handle ∈ next.ciphertextPinned → (next.deviceCiphertexts.lookup handle).isSome) :
    next.Books where
  bytes := bytes
  lruNodup := nodup
  lruResident other := by
    by_cases same : other = handle
    · rw [same]
      exact listed
    · rw [only.listed other same, only.entries other same]
      exact books.lruResident other
  residency other := by
    by_cases same : other = handle
    · rw [same]
      exact residency
    · rw [only.entries other same, only.devices other same]
      exact books.residency other
  tracked other := by
    by_cases same : other = handle
    · rw [same]
      exact tracked
    · rw [only.entries other same, only.devices other same]
      exact books.tracked other
  pinned other := by
    by_cases same : other = handle
    · rw [same]
      exact pinned
    · intro member
      rw [only.devices other same]
      exact books.pinned other (only.pins other same member)

/-- No saturating subtraction of a resident entry saturates. -/
theorem Books.bytes_le (books : cache.Books) {handle : Handle} {entry : CiphertextCacheEntry}
    (stored : cache.ciphertextCache.lookup handle = some entry) (resident : entry.resident = true) :
    entry.bytes ≤ cache.ciphertextResidentBytes := by
  have part := KeyedMap.weight_le_total CiphertextCacheEntry.residentBytes stored
  rw [← books.bytes, CiphertextCacheEntry.residentBytes, if_pos resident] at part
  exact part

/-- A registered ciphertext has an entry that knows whether it is offloaded. -/
theorem Books.entry_of_device (books : cache.Books) {handle : Handle} {device : DeviceCiphertext}
    (stored : cache.deviceCiphertexts.lookup handle = some device) :
    ∃ bytes, cache.ciphertextCache.lookup handle = some ⟨bytes, !device.isOffloaded⟩ := by
  have known := books.tracked handle
  rw [stored, Option.isSome_some] at known
  obtain ⟨⟨bytes, resident⟩, found⟩ := Option.isSome_iff_exists.mp known
  have agrees := books.residency handle _ device found stored
  have value : resident = !device.isOffloaded := by
    cases resident <;> cases parked : device.isOffloaded <;> simp_all
  exact ⟨bytes, value ▸ found⟩

/-- A tracked handle is registered. -/
theorem Books.device_of_entry (books : cache.Books) {handle : Handle} {entry : CiphertextCacheEntry}
    (stored : cache.ciphertextCache.lookup handle = some entry) :
    ∃ device, cache.deviceCiphertexts.lookup handle = some device := by
  have known := books.tracked handle
  rw [stored, Option.isSome_some] at known
  exact Option.isSome_iff_exists.mp known.symm

/-- A listed handle is registered and is not offloaded. -/
theorem Books.listed_iff (books : cache.Books) (handle : Handle) : handle ∈ cache.ciphertextLru ↔
    ∃ device, cache.deviceCiphertexts.lookup handle = some device ∧ device.isOffloaded = false := by
  rw [books.lruResident]
  constructor
  · rintro ⟨entry, stored, resident⟩
    obtain ⟨device, registered⟩ := books.device_of_entry stored
    exact ⟨device, registered, (books.residency handle entry device stored registered).mp resident⟩
  · rintro ⟨device, registered, held⟩
    obtain ⟨bytes, stored⟩ := books.entry_of_device registered
    exact ⟨_, stored, by simp [held]⟩

/-- A registration under an unused handle keeps the books. -/
theorem register_books (books : cache.Books) {handle : Handle} {device : DeviceCiphertext}
    (fresh : cache.deviceCiphertexts.lookup handle = none) (held : device.isOffloaded = false) :
    (cache.registerDeviceCiphertext handle device).Books := by
  have untracked : cache.ciphertextCache.lookup handle = none := by
    have known := books.tracked handle
    rw [fresh, Option.isSome_none] at known
    simpa using known
  have unlisted : handle ∉ cache.ciphertextLru := by
    rw [books.lruResident]
    simp [untracked]
  unfold registerDeviceCiphertext trackCiphertext
  rw [KeyedMap.emplace_new fresh, KeyedMap.emplace_new untracked]
  apply @Books.change cache _ books handle
  case only =>
    exact changesOnly_insert fun other different => by simp [different]
  case bytes =>
    change _ + _ = _
    rw [KeyedMap.total_insert_new _ _ untracked, books.bytes]
    rfl
  case nodup => exact List.nodup_cons.mpr ⟨unlisted, books.lruNodup⟩
  case listed => simp
  case residency => simp [held]
  case tracked => simp
  case pinned => simp

/-- A use that brings the ciphertext back keeps the books. -/
theorem touch_books (books : cache.Books) {handle : Handle} {device after : DeviceCiphertext}
    (registered : cache.deviceCiphertexts.lookup handle = some device)
    (held : after.isOffloaded = false) (bytes : Nat) :
    ((cache.setDevice handle after).touchCiphertext handle bytes).Books := by
  obtain ⟨old, stored⟩ := books.entry_of_device registered
  have change := KeyedMap.total_insert_old CiphertextCacheEntry.residentBytes
    (⟨bytes, true⟩ : CiphertextCacheEntry) stored
  rw [← books.bytes] at change
  cases parked : device.isOffloaded with
  | true =>
      have unlisted : handle ∉ cache.ciphertextLru := by
        rw [books.listed_iff]
        simp [registered, parked]
      rw [parked] at change stored
      rw [touchCiphertext_offloaded bytes (show (cache.setDevice handle after).ciphertextCache.lookup
        handle = some ⟨old, false⟩ from stored)]
      apply @Books.change cache _ books handle
      case only =>
        exact changesOnly_insert fun other different => by simp [setDevice, different]
      case bytes => exact change.symm
      case nodup => exact List.nodup_cons.mpr ⟨unlisted, books.lruNodup⟩
      case listed => simp [setDevice]
      case residency => simp [setDevice, held]
      case tracked => simp [setDevice]
      case pinned => simp [setDevice]
  | false =>
      rw [parked] at change stored
      have small := books.bytes_le stored rfl
      rw [touchCiphertext_resident bytes (show (cache.setDevice handle after).ciphertextCache.lookup
        handle = some ⟨old, true⟩ from stored)]
      apply @Books.change cache _ books handle
      case only =>
        exact changesOnly_insert fun other different => by
          simp [setDevice, different, List.mem_erase_of_ne different]
      case bytes =>
        change KeyedMap.total _ _ + old = cache.ciphertextResidentBytes + bytes at change
        change cache.ciphertextResidentBytes - min old cache.ciphertextResidentBytes + bytes =
          KeyedMap.total _ (cache.ciphertextCache.insert handle ⟨bytes, true⟩)
        change old ≤ _ at small
        omega
      case nodup =>
        exact List.nodup_cons.mpr ⟨books.lruNodup.not_mem_erase, books.lruNodup.erase handle⟩
      case listed => simp [setDevice]
      case residency => simp [setDevice, held]
      case tracked => simp [setDevice]
      case pinned => simp [setDevice]

/-- A ciphertext that is parked in host memory keeps the books. -/
theorem park_books (books : cache.Books) {handle : Handle} {device after : DeviceCiphertext}
    (registered : cache.deviceCiphertexts.lookup handle = some device)
    (parks : after.isOffloaded = true) :
    ((cache.setDevice handle after).markCiphertextOffloaded handle).Books := by
  obtain ⟨old, stored⟩ := books.entry_of_device registered
  cases parked : device.isOffloaded with
  | true =>
      have unlisted : handle ∉ cache.ciphertextLru := by
        rw [books.listed_iff]
        simp [registered, parked]
      rw [parked] at stored
      rw [markCiphertextOffloaded_offloaded (show (cache.setDevice handle after).ciphertextCache.lookup
        handle = some ⟨old, false⟩ from stored)]
      apply @Books.change cache _ books handle
      case only =>
        exact changesOnly_device
      case bytes => exact books.bytes
      case nodup => exact books.lruNodup
      case listed => simp [setDevice, unlisted, stored]
      case residency => simp [setDevice, stored, parks]
      case tracked => simp [setDevice, stored]
      case pinned => simp [setDevice]
  | false =>
      rw [parked] at stored
      have change := KeyedMap.total_insert_old CiphertextCacheEntry.residentBytes
        (⟨old, false⟩ : CiphertextCacheEntry) stored
      rw [← books.bytes] at change
      have small := books.bytes_le stored rfl
      rw [markCiphertextOffloaded_resident (show (cache.setDevice handle after).ciphertextCache.lookup
        handle = some ⟨old, true⟩ from stored)]
      apply @Books.change cache _ books handle
      case only =>
        exact changesOnly_insert fun other different => List.mem_erase_of_ne different
      case bytes =>
        change KeyedMap.total _ _ + old = cache.ciphertextResidentBytes + 0 at change
        change cache.ciphertextResidentBytes - min old cache.ciphertextResidentBytes =
          KeyedMap.total _ (cache.ciphertextCache.insert handle ⟨old, false⟩)
        change old ≤ _ at small
        omega
      case nodup => exact books.lruNodup.erase handle
      case listed => simp [setDevice, books.lruNodup.not_mem_erase]
      case residency => simp [setDevice, parks]
      case tracked => simp [setDevice]
      case pinned => simp [setDevice]

/-- An eviction removes every trace of a handle. -/
theorem evict_books (books : cache.Books) (handle : Handle) :
    (cache.evictDeviceCiphertext handle).2.Books := by
  unfold evictDeviceCiphertext
  have change := KeyedMap.total_erase CiphertextCacheEntry.residentBytes handle
    cache.ciphertextCache
  rw [← books.bytes] at change
  match stored : cache.ciphertextCache.lookup handle with
  | none =>
      have unregistered : cache.deviceCiphertexts.lookup handle = none := by
        have known := books.tracked handle
        rw [stored, Option.isSome_none] at known
        simpa using known.symm
      have unlisted : handle ∉ cache.ciphertextLru := by
        rw [books.lruResident]
        simp [stored]
      have unpinned : handle ∉ cache.ciphertextPinned := by
        intro member
        have known := books.pinned handle member
        simp [unregistered] at known
      rw [untrackCiphertext_unknown stored]
      apply @Books.change cache _ books handle
      case only =>
        exact {
          entries := fun other different => rfl
          devices := fun other different => AList.lookup_erase_ne different
          listed := fun other different => Iff.rfl
          pins := fun other different member => member }
      case bytes => exact books.bytes
      case nodup => exact books.lruNodup
      case listed => simp [unlisted, stored]
      case residency => simp [stored]
      case tracked => simp [stored]
      case pinned => simp [unpinned]
  | some ⟨old, true⟩ =>
      have small := books.bytes_le stored rfl
      rw [untrackCiphertext_resident stored]
      apply @Books.change cache _ books handle
      case only =>
        exact {
          entries := fun other different => AList.lookup_erase_ne different
          devices := fun other different => AList.lookup_erase_ne different
          listed := fun other different => List.mem_erase_of_ne different
          pins := fun other different member => Finset.mem_of_mem_erase member }
      case bytes =>
        rw [stored] at change
        change KeyedMap.total _ _ + old = cache.ciphertextResidentBytes at change
        change cache.ciphertextResidentBytes - min old cache.ciphertextResidentBytes =
          KeyedMap.total _ (cache.ciphertextCache.erase handle)
        change old ≤ _ at small
        omega
      case nodup => exact books.lruNodup.erase handle
      case listed => simp [books.lruNodup.not_mem_erase]
      case residency => simp
      case tracked => simp
      case pinned => simp
  | some ⟨old, false⟩ =>
      have unlisted : handle ∉ cache.ciphertextLru := by
        rw [books.lruResident]
        simp [stored]
      rw [untrackCiphertext_offloaded stored]
      apply @Books.change cache _ books handle
      case only =>
        exact {
          entries := fun other different => AList.lookup_erase_ne different
          devices := fun other different => AList.lookup_erase_ne different
          listed := fun other different => Iff.rfl
          pins := fun other different member => Finset.mem_of_mem_erase member }
      case bytes =>
        rw [stored] at change
        change KeyedMap.total _ _ + 0 = cache.ciphertextResidentBytes at change
        exact change.symm
      case nodup => exact books.lruNodup
      case listed => simp [unlisted]
      case residency => simp
      case tracked => simp
      case pinned => simp

/-- The cache parks a resident ciphertext or leaves everything as it is. -/
theorem offloadCiphertextForCache_cases (books : cache.Books) (handle : Handle) :
    ((cache.offloadCiphertextForCache handle).2 = cache ∧
      (handle ∈ cache.ciphertextLru →
        ∃ device, cache.deviceCiphertexts.lookup handle = some device ∧ device.isModUp = true)) ∨
    ∃ device, cache.deviceCiphertexts.lookup handle = some device ∧ device.isOffloaded = false ∧
      device.isModUp = false ∧ (cache.offloadCiphertextForCache handle).2 =
        (cache.setDevice handle device.offload).markCiphertextOffloaded handle := by
  unfold offloadCiphertextForCache
  match stored : cache.ciphertextCache.lookup handle with
  | none =>
      refine Or.inl ⟨rfl, fun listed => ?_⟩
      obtain ⟨entry, found, _⟩ := (books.lruResident handle).mp listed
      rw [stored] at found
      cases found
  | some ⟨old, false⟩ =>
      refine Or.inl ⟨rfl, fun listed => ?_⟩
      obtain ⟨entry, found, resident⟩ := (books.lruResident handle).mp listed
      rw [stored] at found
      cases found
      cases resident
  | some ⟨old, true⟩ =>
      obtain ⟨device, registered⟩ := books.device_of_entry stored
      have held := (books.residency handle _ device stored registered).mp rfl
      simp only [if_true, registered, held, Bool.false_eq_true, if_false]
      cases raised : device.isModUp with
      | true => exact Or.inl ⟨rfl, fun _ => ⟨device, rfl, raised⟩⟩
      | false => exact Or.inr ⟨device, rfl, held, raised, rfl⟩

/-- One offload of the cache keeps the books. -/
theorem offloadCiphertextForCache_books (books : cache.Books) (handle : Handle) :
    (cache.offloadCiphertextForCache handle).2.Books := by
  obtain ⟨same, _⟩ | ⟨device, registered, _, _, parks⟩ := offloadCiphertextForCache_cases books handle
  · rw [same]
    exact books
  · rw [parks]
    exact park_books books registered device.offload_offloaded

/-- These steps park ciphertexts outside a set of kept handles and change nothing else. -/
structure ParksOutside (kept : Handle → Prop) (cache next : CiphertextCache) : Prop where
  budget : next.ciphertextCacheBytes = cache.ciphertextCacheBytes
  pins : next.ciphertextPinned = cache.ciphertextPinned
  entries : ∀ handle, kept handle →
    next.ciphertextCache.lookup handle = cache.ciphertextCache.lookup handle
  devices : ∀ handle, kept handle →
    next.deviceCiphertexts.lookup handle = cache.deviceCiphertexts.lookup handle
  parked : ∀ handle, next.deviceCiphertexts.lookup handle = cache.deviceCiphertexts.lookup handle ∨
    next.deviceCiphertexts.lookup handle =
      (cache.deviceCiphertexts.lookup handle).map DeviceCiphertext.offload

variable {kept : Handle → Prop}

theorem ParksOutside.rfl' : ParksOutside kept cache cache :=
  ⟨rfl, rfl, fun _ _ => rfl, fun _ _ => rfl, fun _ => Or.inl rfl⟩

theorem ParksOutside.trans {last : CiphertextCache} (first : ParksOutside kept cache next)
    (second : ParksOutside kept next last) : ParksOutside kept cache last where
  budget := second.budget.trans first.budget
  pins := second.pins.trans first.pins
  entries handle keeps := (second.entries handle keeps).trans (first.entries handle keeps)
  devices handle keeps := (second.devices handle keeps).trans (first.devices handle keeps)
  parked handle := by
    obtain same | parks := second.parked handle
    · rw [same]
      exact first.parked handle
    · obtain same | before := first.parked handle
      · rw [parks, same]
        exact Or.inr rfl
      · rw [parks, before]
        right
        cases cache.deviceCiphertexts.lookup handle with
        | none => rfl
        | some device => simp

/-- One offload of a handle outside the kept ones parks nothing else. -/
theorem offloadCiphertextForCache_parks (books : cache.Books) {handle : Handle}
    (free : ¬kept handle) :
    ParksOutside kept cache (cache.offloadCiphertextForCache handle).2 := by
  obtain ⟨same, _⟩ | ⟨device, registered, _, _, parks⟩ := offloadCiphertextForCache_cases books handle
  · rw [same]
    exact ParksOutside.rfl'
  · have different : ∀ other, kept other → other ≠ handle := fun other keeps same =>
      free (same ▸ keeps)
    rw [parks]
    exact {
      budget := by simp [setDevice]
      pins := by simp [setDevice]
      entries := fun other keeps => markCiphertextOffloaded_ciphertextCache (different other keeps)
      devices := fun other keeps => by
        rw [markCiphertextOffloaded_deviceCiphertexts]
        exact AList.lookup_insert_ne (different other keeps)
      parked := fun other => by
        rw [markCiphertextOffloaded_deviceCiphertexts]
        by_cases same : other = handle
        · rw [same, registered]
          exact Or.inr (AList.lookup_insert _)
        · exact Or.inl (AList.lookup_insert_ne same) }

/-- A handle that the budget cannot evict is protected, pinned or in the extended basis. -/
def Stays (protect : Handle) (cache : CiphertextCache) (handle : Handle) : Prop :=
  handle = protect ∨ handle ∈ cache.ciphertextPinned ∨
    ∃ device, cache.deviceCiphertexts.lookup handle = some device ∧ device.isModUp = true

/-- The total respects the budget when it is unlimited or large enough. -/
def WithinBudget (cache : CiphertextCache) : Prop :=
  cache.ciphertextCacheBytes = sizeMax ∨ cache.ciphertextResidentBytes ≤ cache.ciphertextCacheBytes

/-- What the loop keeps is the protected handle and every pinned one. -/
def Kept (protect : Handle) (cache : CiphertextCache) (handle : Handle) : Prop :=
  handle = protect ∨ handle ∈ cache.ciphertextPinned

/-- Parked ciphertexts do not change which handles stay. -/
theorem ParksOutside.stays_iff (parks : ParksOutside kept cache next) (protect handle : Handle) :
    Stays protect next handle ↔ Stays protect cache handle := by
  unfold Stays
  rw [parks.pins]
  obtain same | before := parks.parked handle
  · rw [same]
  · rw [before]
    cases cache.deviceCiphertexts.lookup handle with
    | none => simp
    | some device => simp

/-- Parked ciphertexts leave the list, and no other ciphertext enters it. -/
theorem ParksOutside.listed (parks : ParksOutside kept cache next) (books : cache.Books)
    (after : next.Books) {handle : Handle} (listed : handle ∈ next.ciphertextLru) :
    handle ∈ cache.ciphertextLru := by
  obtain ⟨device, registered, held⟩ := (after.listed_iff handle).mp listed
  rw [books.listed_iff]
  obtain same | before := parks.parked handle
  · exact ⟨device, same ▸ registered, held⟩
  · rw [registered] at before
    obtain ⟨old, _, rfl⟩ := Option.map_eq_some_iff.mp before.symm
    have parked := old.offload_offloaded
    change old.offload.offloaded = false at held
    rw [held] at parked
    cases parked

/-- The eviction loop keeps the books and what it must not touch. -/
theorem enforceOver_keeps (protect : Handle) (candidates : List Handle) (cache : CiphertextCache)
    (books : cache.Books) : (enforceOver protect candidates cache).Books ∧
      ParksOutside (Kept protect cache) cache (enforceOver protect candidates cache) := by
  induction candidates generalizing cache with
  | nil => exact ⟨books, ParksOutside.rfl'⟩
  | cons handle rest ih =>
      rw [enforceOver]
      split
      case isTrue => exact ⟨books, ParksOutside.rfl'⟩
      case isFalse =>
        split
        case isTrue => exact ih cache books
        case isFalse free =>
          have first := @offloadCiphertextForCache_parks _ (Kept protect cache) books handle free
          obtain ⟨after, second⟩ := ih _ (offloadCiphertextForCache_books books handle)
          have same : Kept protect (cache.offloadCiphertextForCache handle).2 =
              Kept protect cache := by
            funext other
            simp only [Kept, first.pins]
          rw [same] at second
          exact ⟨after, first.trans second⟩

/-- The eviction loop ends within the budget or with nothing left to evict. -/
theorem enforceOver_settles (protect : Handle) (candidates : List Handle) (cache : CiphertextCache)
    (books : cache.Books)
    (covers : ∀ handle ∈ cache.ciphertextLru, handle ∈ candidates ∨ Stays protect cache handle) :
    (enforceOver protect candidates cache).WithinBudget ∨
      ∀ handle ∈ (enforceOver protect candidates cache).ciphertextLru,
        Stays protect (enforceOver protect candidates cache) handle := by
  induction candidates generalizing cache with
  | nil =>
      right
      intro handle listed
      exact (covers handle listed).resolve_left (List.not_mem_nil)
  | cons handle rest ih =>
      rw [enforceOver]
      split
      case isTrue enough => exact Or.inl (Or.inr enough)
      case isFalse =>
        split
        case isTrue keeps =>
          apply ih cache books
          intro other listed
          obtain member | stays := covers other listed
          · obtain rfl | later := List.mem_cons.mp member
            · exact Or.inr (keeps.elim Or.inl fun pin => Or.inr (Or.inl pin))
            · exact Or.inl later
          · exact Or.inr stays
        case isFalse free =>
          have parks := @offloadCiphertextForCache_parks _ (Kept protect cache) books handle free
          have after := offloadCiphertextForCache_books books handle
          apply ih _ after
          intro other listed
          rw [parks.stays_iff]
          obtain member | stays := covers other (parks.listed books after listed)
          · obtain rfl | later := List.mem_cons.mp member
            · right
              obtain ⟨same, raised⟩ | ⟨device, _, _, _, parked⟩ :=
                offloadCiphertextForCache_cases books other
              · rw [same] at listed
                exact Or.inr (Or.inr (raised listed))
              · obtain ⟨found, registered, held⟩ := (after.listed_iff other).mp listed
                rw [parked, markCiphertextOffloaded_deviceCiphertexts] at registered
                have value : device.offload = found :=
                  Option.some.inj ((AList.lookup_insert _).symm.trans registered)
                rw [← value] at held
                exact absurd (device.offload_offloaded.symm.trans held) (by decide)
            · exact Or.inl later
          · exact Or.inr stays

/-- The budget keeps the books and what it must not touch. -/
theorem enforceCiphertextBudget_keeps (books : cache.Books) (protect : Handle) :
    (cache.enforceCiphertextBudget protect).Books ∧
      ParksOutside (Kept protect cache) cache (cache.enforceCiphertextBudget protect) := by
  unfold enforceCiphertextBudget
  split
  case isTrue => exact ⟨books, ParksOutside.rfl'⟩
  case isFalse => exact enforceOver_keeps protect _ cache books

/-- The budget holds afterwards, or nothing is left to evict. -/
theorem enforceCiphertextBudget_settles (books : cache.Books) (protect : Handle) :
    (cache.enforceCiphertextBudget protect).WithinBudget ∨
      ∀ handle ∈ (cache.enforceCiphertextBudget protect).ciphertextLru,
        Stays protect (cache.enforceCiphertextBudget protect) handle := by
  unfold enforceCiphertextBudget
  split
  case isTrue enough => exact Or.inl enough
  case isFalse =>
    apply enforceOver_settles protect _ cache books
    intro handle listed
    exact Or.inl (List.mem_reverse.mpr listed)

/-- The offload of all unpinned ciphertexts keeps the books and the pinned ones. -/
theorem offloadOver_keeps (handles : List Handle) (cache : CiphertextCache) (books : cache.Books) :
    (offloadOver handles cache).Books ∧
      ParksOutside (· ∈ cache.ciphertextPinned) cache (offloadOver handles cache) := by
  induction handles generalizing cache with
  | nil => exact ⟨books, ParksOutside.rfl'⟩
  | cons handle rest ih =>
      rw [offloadOver]
      split
      case isTrue => exact ih cache books
      case isFalse free =>
        have first := @offloadCiphertextForCache_parks _ (· ∈ cache.ciphertextPinned) books handle
          free
        obtain ⟨after, second⟩ := ih _ (offloadCiphertextForCache_books books handle)
        rw [first.pins] at second
        exact ⟨after, first.trans second⟩

/-- An explicit offload keeps the books, whether or not the ciphertext is pinned. -/
theorem offloadCiphertext_books (books : cache.Books) (handle : Handle) :
    (cache.offloadCiphertext handle).Books := by
  unfold offloadCiphertext
  split
  case isTrue => exact books
  case isFalse =>
    cases registered : cache.deviceCiphertexts.lookup handle with
    | none => exact books
    | some device => exact park_books books registered device.offload_offloaded

theorem reloadCiphertext_books (books : cache.Books) (handle : Handle) :
    (cache.reloadCiphertext handle).Books := by
  unfold reloadCiphertext
  split
  case isTrue => exact books
  case isFalse =>
    cases registered : cache.deviceCiphertexts.lookup handle with
    | none => exact books
    | some device =>
        dsimp only
        split
        case isTrue => exact touch_books books registered device.reload_offloaded _
        case isFalse => exact books

theorem getDeviceCiphertext_books (books : cache.Books) {handle : Handle}
    {device : DeviceCiphertext} (fetched : cache.getDeviceCiphertext handle = some (device, next)) :
    next.Books := by
  obtain ⟨stored, registered, same⟩ := Option.map_eq_some_iff.mp fetched
  cases same
  exact touch_books books registered stored.reload_offloaded _

/-- A kernel does not change what is resident. -/
theorem compute_books (books : cache.Books) (handle : Handle) (footprint : Footprint) :
    (cache.compute handle footprint).Books := by
  unfold compute
  cases registered : cache.deviceCiphertexts.lookup handle with
  | none => exact books
  | some device =>
      obtain ⟨old, stored⟩ := books.entry_of_device registered
      apply @Books.change cache _ books handle
      case only =>
        exact changesOnly_device
      case bytes => exact books.bytes
      case nodup => exact books.lruNodup
      case listed => exact books.lruResident handle
      case residency => simp [setDevice, stored, DeviceCiphertext.isOffloaded]
      case tracked => simp [setDevice, stored]
      case pinned => simp [setDevice]

/-- These steps register no handle and drop none. -/
def SameHandles (cache next : CiphertextCache) : Prop :=
  ∀ handle, (next.deviceCiphertexts.lookup handle).isSome =
    (cache.deviceCiphertexts.lookup handle).isSome

theorem ParksOutside.sameHandles (parks : ParksOutside kept cache next) :
    SameHandles cache next := by
  intro handle
  obtain same | before := parks.parked handle
  · rw [same]
  · rw [before, Option.isSome_map]

/-- A new state of a registered object keeps the handles. -/
theorem setDevice_sameHandles {handle : Handle} {device : DeviceCiphertext}
    (registered : cache.deviceCiphertexts.lookup handle = some device) (after : DeviceCiphertext) :
    SameHandles cache (cache.setDevice handle after) := by
  intro other
  by_cases same : other = handle
  · subst same
    simp [setDevice, registered]
  · simp [setDevice, AList.lookup_insert_ne same]

theorem reloadCiphertext_sameHandles (handle : Handle) :
    SameHandles cache (cache.reloadCiphertext handle) := by
  unfold reloadCiphertext
  split
  case isTrue => exact fun _ => rfl
  case isFalse =>
    cases registered : cache.deviceCiphertexts.lookup handle with
    | none => exact fun _ => rfl
    | some device =>
        dsimp only
        split
        case isTrue =>
          intro other
          rw [touchCiphertext_deviceCiphertexts]
          exact setDevice_sameHandles registered _ other
        case isFalse => exact fun _ => rfl

theorem offloadCiphertext_sameHandles (handle : Handle) :
    SameHandles cache (cache.offloadCiphertext handle) := by
  unfold offloadCiphertext
  split
  case isTrue => exact fun _ => rfl
  case isFalse =>
    cases registered : cache.deviceCiphertexts.lookup handle with
    | none => exact fun _ => rfl
    | some device =>
        intro other
        dsimp only
        rw [markCiphertextOffloaded_deviceCiphertexts]
        exact setDevice_sameHandles registered _ other

theorem compute_sameHandles (handle : Handle) (footprint : Footprint) :
    SameHandles cache (cache.compute handle footprint) := by
  unfold compute
  cases registered : cache.deviceCiphertexts.lookup handle with
  | none => exact fun _ => rfl
  | some device => exact setDevice_sameHandles registered _

/-- A fetch yields a resident object and keeps the handles. -/
theorem getDeviceCiphertext_sameHandles {handle : Handle} {device : DeviceCiphertext}
    (fetched : cache.getDeviceCiphertext handle = some (device, next)) :
    SameHandles cache next := by
  obtain ⟨stored, registered, same⟩ := Option.map_eq_some_iff.mp fetched
  cases same
  intro other
  rw [touchCiphertext_deviceCiphertexts]
  exact setDevice_sameHandles registered _ other

/-- A registered handle is resident after a reload. -/
theorem reloadCiphertext_resident {handle : Handle} (nonzero : handle ≠ 0)
    (registered : (cache.deviceCiphertexts.lookup handle).isSome) :
    ∃ device, (cache.reloadCiphertext handle).deviceCiphertexts.lookup handle = some device ∧
      device.isOffloaded = false := by
  obtain ⟨device, stored⟩ := Option.isSome_iff_exists.mp registered
  unfold reloadCiphertext
  rw [if_neg nonzero, stored]
  dsimp only
  split
  case isTrue =>
    rw [touchCiphertext_deviceCiphertexts]
    exact ⟨device.reload, AList.lookup_insert _, device.reload_offloaded⟩
  case isFalse held => exact ⟨device, stored, Bool.eq_false_iff.mpr held⟩

/-- A fetched handle is resident. -/
theorem getDeviceCiphertext_resident {handle : Handle} {device : DeviceCiphertext}
    (fetched : cache.getDeviceCiphertext handle = some (device, next)) :
    ∃ held, next.deviceCiphertexts.lookup handle = some held ∧ held.isOffloaded = false := by
  obtain ⟨stored, registered, same⟩ := Option.map_eq_some_iff.mp fetched
  cases same
  rw [touchCiphertext_deviceCiphertexts]
  exact ⟨stored.reload, AList.lookup_insert _, stored.reload_offloaded⟩

/-- A pin of a registered handle keeps the books. -/
theorem pin_books (books : cache.Books) {handle : Handle}
    (registered : (cache.deviceCiphertexts.lookup handle).isSome) :
    { cache with ciphertextPinned := insert handle cache.ciphertextPinned }.Books :=
  { books with
    pinned := by
      intro other member
      obtain rfl | before := Finset.mem_insert.mp member
      · exact registered
      · exact books.pinned other before }

theorem unpin_books (books : cache.Books) (handle : Handle) :
    { cache with ciphertextPinned := cache.ciphertextPinned.erase handle }.Books :=
  { books with
    pinned := fun other member => books.pinned other (Finset.mem_of_mem_erase member) }

end CiphertextCache
end Fideslib.Residency
