/-
This file proves what the moves of the plaintext cache keep for the owners of device plaintexts.
-/

import Fideslib.Residency.PlaintextBooks

namespace Fideslib.Residency.PlaintextCache

variable {Encoding : Type} {cache before after : PlaintextCache Encoding} {bound : Name}

/-- Loaded owners have handles of their own, and an entry names the loaded owner of its handle. -/
structure Consistent (bound : Name) (cache : PlaintextCache Encoding) : Prop where
  registered : ∀ name pt, cache.owners.lookup name = some pt → pt.loaded = true →
    (cache.devicePlaintexts.lookup pt.gpu).isSome
  alone : ∀ first second one two, cache.owners.lookup first = some one →
    cache.owners.lookup second = some two → one.loaded = true → two.loaded = true →
    one.gpu = two.gpu → first = second
  owned : ∀ handle entry, cache.plaintextCache.lookup handle = some entry →
    ∀ name pt, cache.owners.lookup name = some pt → pt.loaded = true → pt.gpu = handle →
    entry.owner = name
  tracked : ∀ handle, (cache.plaintextCache.lookup handle).isSome →
    (cache.devicePlaintexts.lookup handle).isSome
  named : ∀ name, (cache.owners.lookup name).isSome → name < bound
  ownerNamed : ∀ handle entry, cache.plaintextCache.lookup handle = some entry → entry.owner < bound

/-- A change of the owners keeps the cache consistent when it loads nothing. -/
theorem Consistent.owners (kept : Consistent bound cache)
    {owners : AList fun _ : Name => PlaintextImpl Encoding} {wider : Name} (within : bound ≤ wider)
    (loads : ∀ name pt, owners.lookup name = some pt → pt.loaded = true →
      ∃ old, cache.owners.lookup name = some old ∧ old.loaded = true ∧ old.gpu = pt.gpu)
    (named : ∀ name, (owners.lookup name).isSome → name < wider) :
    Consistent wider { cache with owners := owners } := by
  constructor
  case registered =>
    intro name pt live loaded
    obtain ⟨old, lived, was, same⟩ := loads name pt live loaded
    rw [← same]
    exact kept.registered name old lived was
  case alone =>
    intro first second one two live other loaded too same
    obtain ⟨before, lived, was, sameOne⟩ := loads first one live loaded
    obtain ⟨former, existed, had, sameTwo⟩ := loads second two other too
    exact kept.alone first second before former lived existed was had
      (sameOne.trans (same.trans sameTwo.symm))
  case owned =>
    intro handle entry stored name pt live loaded same
    obtain ⟨old, lived, was, sameHandle⟩ := loads name pt live loaded
    exact kept.owned handle entry stored name old lived was (sameHandle.trans same)
  case tracked => exact kept.tracked
  case named => exact named
  case ownerNamed => exact fun handle entry stored => (kept.ownerNamed handle entry stored).trans_le within

theorem initial_consistent : Consistent bound (initial : PlaintextCache Encoding) where
  registered := by simp [initial]
  alone := by simp [initial]
  owned := by simp [initial]
  tracked := by simp [initial]
  named := by simp [initial]
  ownerNamed := by simp [initial]

/-- A move of the cache may unload owners and keeps the others. -/
structure Moves (bound : Name) (before after : PlaintextCache Encoding) : Prop where
  owner : ∀ name, after.owners.lookup name = before.owners.lookup name ∨
    ∃ pt, before.owners.lookup name = some pt ∧
      after.owners.lookup name = some { pt with loaded := false, gpu := 0 }
  consistent : Consistent bound before → Consistent bound after

namespace Moves

theorem still : Moves bound cache cache := ⟨fun _ => Or.inl rfl, fun kept => kept⟩

theorem trans {last : PlaintextCache Encoding} (first : Moves bound before after)
    (second : Moves bound after last) : Moves bound before last := by
  constructor
  case owner =>
    intro name
    obtain same | ⟨pt, live, unloaded⟩ := second.owner name
    · rw [same]
      exact first.owner name
    · right
      obtain same | ⟨other, lived, gone⟩ := first.owner name
      · exact ⟨pt, same ▸ live, unloaded⟩
      · rw [live] at gone
        cases gone
        exact ⟨other, lived, unloaded⟩
  case consistent => exact fun kept => second.consistent (first.consistent kept)

/-- A change of the recency list, the pins, the budget or the guard is no change for an owner. -/
theorem of_same (owners : after.owners = before.owners)
    (entries : after.plaintextCache = before.plaintextCache)
    (registry : after.devicePlaintexts = before.devicePlaintexts) : Moves bound before after where
  owner _ := Or.inl (by rw [owners])
  consistent kept := by
    constructor
    case registered => simpa only [owners, registry] using kept.registered
    case alone => simpa only [owners] using kept.alone
    case owned => simpa only [owners, entries] using kept.owned
    case tracked => simpa only [entries, registry] using kept.tracked
    case named => simpa only [owners] using kept.named
    case ownerNamed => simpa only [entries] using kept.ownerNamed

/-- Every host encoding stays. -/
theorem encoding (moves : Moves bound before after) (name : Name) :
    (after.owners.lookup name).map PlaintextImpl.cpu =
      (before.owners.lookup name).map PlaintextImpl.cpu := by
  obtain same | ⟨pt, live, unloaded⟩ := moves.owner name
  · rw [same]
  · rw [live, unloaded]
    rfl

/-- What is still loaded was not touched. -/
theorem loaded (moves : Moves bound before after) {name : Name} {pt : PlaintextImpl Encoding}
    (live : after.owners.lookup name = some pt) (loaded : pt.loaded = true) :
    before.owners.lookup name = some pt := by
  obtain same | ⟨other, lived, unloaded⟩ := moves.owner name
  · exact same ▸ live
  · rw [live] at unloaded
    cases unloaded
    cases loaded

end Moves

theorem evictDevicePlaintext_entry (handle other : Handle) :
    (cache.evictDevicePlaintext handle).2.plaintextCache.lookup other =
      if other = handle then none else cache.plaintextCache.lookup other := by
  unfold evictDevicePlaintext untrackPlaintext
  split
  case h_1 missing =>
    split
    case isTrue same =>
      subst same
      exact missing
    case isFalse => rfl
  case h_2 => exact KeyedMap.lookup_erase_eq handle other _

theorem evictDevicePlaintext_registry (handle other : Handle) :
    (cache.evictDevicePlaintext handle).2.devicePlaintexts.lookup other =
      if other = handle then none else cache.devicePlaintexts.lookup other := by
  have erased : (cache.evictDevicePlaintext handle).2.devicePlaintexts =
      cache.devicePlaintexts.erase handle := by
    unfold evictDevicePlaintext untrackPlaintext
    split <;> rfl
  rw [erased]
  exact KeyedMap.lookup_erase_eq handle other _

/-- An eviction keeps the cache consistent when no loaded owner is left behind the handle. -/
theorem Consistent.evict (kept : Consistent bound cache) {handle : Handle}
    (free : ∀ name pt, cache.owners.lookup name = some pt → pt.loaded = true → pt.gpu ≠ handle) :
    Consistent bound (cache.evictDevicePlaintext handle).2 := by
  constructor
  case registered =>
    intro name pt live loaded
    rw [evictDevicePlaintext_owners] at live
    rw [evictDevicePlaintext_registry, if_neg (free name pt live loaded)]
    exact kept.registered name pt live loaded
  case alone =>
    rw [evictDevicePlaintext_owners]
    exact kept.alone
  case owned =>
    intro other entry stored
    rw [evictDevicePlaintext_entry] at stored
    rw [evictDevicePlaintext_owners]
    split at stored
    case isTrue => cases stored
    case isFalse => exact kept.owned other entry stored
  case tracked =>
    intro other known
    rw [evictDevicePlaintext_entry] at known
    rw [evictDevicePlaintext_registry]
    split at known
    case isTrue => cases known
    case isFalse different =>
      rw [if_neg different]
      exact kept.tracked other known
  case named =>
    rw [evictDevicePlaintext_owners]
    exact kept.named
  case ownerNamed =>
    intro other entry stored
    rw [evictDevicePlaintext_entry] at stored
    split at stored
    case isTrue => cases stored
    case isFalse => exact kept.ownerNamed other entry stored

theorem unloadOwner_owner (entry : PlaintextCacheEntry) (name : Name) :
    (cache.unloadOwner entry).owners.lookup name =
      if name = entry.owner then
        (cache.owners.lookup name).map fun pt => { pt with loaded := false, gpu := 0 }
      else cache.owners.lookup name := by
  unfold unloadOwner
  split
  case h_1 missing =>
    split
    case isTrue same =>
      subst same
      rw [missing]
      rfl
    case isFalse => rfl
  case h_2 pt live =>
    change (cache.owners.insert entry.owner _).lookup name = _
    rw [KeyedMap.lookup_insert_eq]
    split
    case isTrue same =>
      subst same
      rw [live]
      rfl
    case isFalse => rfl

/-- An unloaded owner leaves the cache consistent. -/
theorem Consistent.unloadOwner (kept : Consistent bound cache) (entry : PlaintextCacheEntry) :
    Consistent bound (cache.unloadOwner entry) := by
  have before : ∀ name pt, (cache.unloadOwner entry).owners.lookup name = some pt →
      pt.loaded = true → cache.owners.lookup name = some pt := by
    intro name pt live loaded
    rw [unloadOwner_owner] at live
    split at live
    case isTrue =>
      obtain ⟨other, _, rfl⟩ := Option.map_eq_some_iff.mp live
      cases loaded
    case isFalse => exact live
  constructor
  case registered =>
    intro name pt live loaded
    rw [unloadOwner_devicePlaintexts]
    exact kept.registered name pt (before name pt live loaded) loaded
  case alone =>
    intro first second one two live other loaded too
    exact kept.alone first second one two (before first one live loaded)
      (before second two other too) loaded too
  case owned =>
    intro handle other stored name pt live loaded
    rw [unloadOwner_plaintextCache] at stored
    exact kept.owned handle other stored name pt (before name pt live loaded) loaded
  case tracked =>
    rw [unloadOwner_plaintextCache, unloadOwner_devicePlaintexts]
    exact kept.tracked
  case named =>
    intro name known
    apply kept.named name
    rw [unloadOwner_owner] at known
    split at known
    case isTrue => simpa using known
    case isFalse => exact known
  case ownerNamed =>
    rw [unloadOwner_plaintextCache]
    exact kept.ownerNamed

/-- An offload unloads the owner of the handle and drops the device object. -/
theorem offloadPlaintextHandle_moves (handle : Handle) :
    Moves bound cache (cache.offloadPlaintextHandle handle).2 := by
  unfold offloadPlaintextHandle
  split
  case h_1 => exact .still
  case h_2 entry stored =>
    constructor
    case owner =>
      intro name
      rw [evictDevicePlaintext_owners, unloadOwner_owner]
      split
      case isTrue same =>
        cases live : cache.owners.lookup name with
        | none => exact Or.inl rfl
        | some pt => exact Or.inr ⟨pt, rfl, rfl⟩
      case isFalse => exact Or.inl rfl
    case consistent =>
      intro kept
      apply (kept.unloadOwner entry).evict
      intro name pt live loaded same
      rw [unloadOwner_owner] at live
      split at live
      case isTrue =>
        obtain ⟨other, _, rfl⟩ := Option.map_eq_some_iff.mp live
        cases loaded
      case isFalse different =>
        exact different (kept.owned handle entry stored name pt live loaded same).symm

theorem enforceLoop_moves (protect : Handle) (cache : PlaintextCache Encoding) :
    Moves bound cache (cache.enforceLoop protect) := by
  fun_induction enforceLoop protect cache with
  | case1 => exact .still
  | case2 cache exceeds chosen offloads ih => exact (offloadPlaintextHandle_moves _).trans ih
  | case3 => exact offloadPlaintextHandle_moves _
  | case4 => exact .still

theorem enforcePlaintextBudget_moves (protect : Handle) :
    Moves bound cache (cache.enforcePlaintextBudget protect) := by
  unfold enforcePlaintextBudget
  split
  case isTrue => exact .still
  case isFalse => exact enforceLoop_moves protect cache

theorem setPlaintextCache_moves (bytes : Nat) :
    Moves bound cache (cache.setPlaintextCache bytes) := by
  have changed : Moves bound cache { cache with plaintextCacheBytes := bytes } :=
    .of_same rfl rfl rfl
  exact changed.trans (enforcePlaintextBudget_moves 0)

theorem offloadOver_moves (handles : List Handle) (cache : PlaintextCache Encoding) :
    Moves bound cache (offloadOver handles cache) := by
  induction handles generalizing cache with
  | nil => exact .still
  | cons handle rest ih => exact (offloadPlaintextHandle_moves handle).trans (ih _)

theorem openHold_moves : Moves bound cache cache.openHold := .of_same rfl rfl rfl

theorem closeHold_moves : Moves bound cache cache.closeHold := by
  have released : Moves bound cache
      { cache with plaintextCacheHold := cache.plaintextCacheHold - 1 } := .of_same rfl rfl rfl
  unfold closeHold
  dsimp only
  split
  case isTrue => exact released.trans (enforcePlaintextBudget_moves 0)
  case isFalse => exact released

theorem touchPlaintext_moves (handle : Handle) : Moves bound cache (cache.touchPlaintext handle) := by
  unfold touchPlaintext
  split
  case h_1 => exact .still
  case h_2 => exact .of_same rfl rfl rfl

@[simp] theorem touchPlaintext_owners (handle : Handle) :
    (cache.touchPlaintext handle).owners = cache.owners := by
  unfold touchPlaintext
  split <;> rfl

@[simp] theorem touchPlaintext_hold (handle : Handle) :
    (cache.touchPlaintext handle).plaintextCacheHold = cache.plaintextCacheHold := by
  unfold touchPlaintext
  split <;> rfl

end Fideslib.Residency.PlaintextCache
