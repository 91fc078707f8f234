/-
This file proves that every operation of the plaintext cache keeps its books.
-/

import Fideslib.Residency.PlaintextCache

namespace Fideslib.Residency
namespace PlaintextCache

variable {Encoding : Type} {cache next : PlaintextCache Encoding}

/-- The ledger agrees with the registry, and the null handle stays unused. -/
structure Ledger (cache : PlaintextCache Encoding) : Prop where
  bytes : cache.plaintextResidentBytes =
    KeyedMap.total PlaintextCacheEntry.bytes cache.plaintextCache
  lruNodup : cache.plaintextLru.Nodup
  lruTracked : ∀ handle, handle ∈ cache.plaintextLru ↔ (cache.plaintextCache.lookup handle).isSome
  tracked : ∀ handle, (cache.plaintextCache.lookup handle).isSome =
    (cache.devicePlaintexts.lookup handle).isSome
  pinned : ∀ handle ∈ cache.plaintextPinned, (cache.devicePlaintexts.lookup handle).isSome
  nonzero : cache.devicePlaintexts.lookup 0 = none

/-- The books also agree with the flags of the live plaintexts. -/
structure Books (cache : PlaintextCache Encoding) : Prop extends Ledger cache where
  owned : ∀ handle entry, cache.plaintextCache.lookup handle = some entry →
    ∃ owner, cache.owners.lookup entry.owner = some owner ∧ owner.loaded = true ∧ owner.gpu = handle
  registered : ∀ name owner, cache.owners.lookup name = some owner → owner.loaded = true →
    ∃ bytes, cache.plaintextCache.lookup owner.gpu = some ⟨name, bytes⟩

theorem initial_books : (initial : PlaintextCache Encoding).Books where
  bytes := rfl
  lruNodup := List.nodup_nil
  lruTracked := by simp [initial]
  tracked := by simp [initial]
  pinned := by simp [initial]
  nonzero := rfl
  owned := by simp [initial]
  registered := by simp [initial]

variable {handle : Handle} {entry : PlaintextCacheEntry}

/-- A tracked handle is registered. -/
theorem Ledger.isSome_of_entry (ledger : cache.Ledger)
    (stored : cache.plaintextCache.lookup handle = some entry) :
    (cache.devicePlaintexts.lookup handle).isSome := by
  rw [← ledger.tracked, stored]
  rfl

/-- A listed handle has an entry. -/
theorem Ledger.entry_of_listed (ledger : cache.Ledger) (listed : handle ∈ cache.plaintextLru) :
    ∃ entry, cache.plaintextCache.lookup handle = some entry :=
  Option.isSome_iff_exists.mp ((ledger.lruTracked handle).mp listed)

/-- A listed handle is not the null handle. -/
theorem Ledger.listed_ne_zero (ledger : cache.Ledger) (listed : handle ∈ cache.plaintextLru) :
    handle ≠ 0 := by
  rintro rfl
  have known := (ledger.lruTracked 0).mp listed
  rw [ledger.tracked, ledger.nonzero] at known
  cases known

/-- No saturating subtraction of a tracked entry saturates. -/
theorem Ledger.bytes_le (ledger : cache.Ledger)
    (stored : cache.plaintextCache.lookup handle = some entry) :
    entry.bytes ≤ cache.plaintextResidentBytes := by
  rw [ledger.bytes]
  exact KeyedMap.weight_le_total PlaintextCacheEntry.bytes stored

/-- A loaded plaintext owns its handle alone. -/
theorem Books.gpu_injective (books : cache.Books) {first second : Name}
    {one other : PlaintextImpl Encoding} (firstLive : cache.owners.lookup first = some one)
    (secondLive : cache.owners.lookup second = some other) (firstLoaded : one.loaded = true)
    (secondLoaded : other.loaded = true) (same : one.gpu = other.gpu) : first = second := by
  obtain ⟨bytes, stored⟩ := books.registered first one firstLive firstLoaded
  obtain ⟨bytes', stored'⟩ := books.registered second other secondLive secondLoaded
  rw [same, stored'] at stored
  cases stored
  rfl

/-- A handle is registered exactly when some plaintext is marked as loaded with it. -/
theorem Books.registered_iff (books : cache.Books) (handle : Handle) :
    (cache.devicePlaintexts.lookup handle).isSome ↔
      ∃ name owner, cache.owners.lookup name = some owner ∧ owner.loaded = true ∧
        owner.gpu = handle := by
  rw [← books.tracked]
  constructor
  · intro tracked
    obtain ⟨entry, stored⟩ := Option.isSome_iff_exists.mp tracked
    obtain ⟨owner, live, loaded, same⟩ := books.owned handle entry stored
    exact ⟨entry.owner, owner, live, loaded, same⟩
  · rintro ⟨name, owner, live, loaded, rfl⟩
    obtain ⟨bytes, stored⟩ := books.registered name owner live loaded
    rw [stored]
    rfl

theorem evictDevicePlaintext_known
    (stored : cache.plaintextCache.lookup handle = some entry) :
    (cache.evictDevicePlaintext handle).2 =
      { cache with
        devicePlaintexts := cache.devicePlaintexts.erase handle
        plaintextResidentBytes := cache.plaintextResidentBytes -
          min entry.bytes cache.plaintextResidentBytes
        plaintextLru := cache.plaintextLru.erase handle
        plaintextPinned := cache.plaintextPinned.erase handle
        plaintextCache := cache.plaintextCache.erase handle } := by
  rw [evictDevicePlaintext, untrackPlaintext, stored]

theorem evictDevicePlaintext_result
    (stored : cache.plaintextCache.lookup handle = some entry) :
    (cache.evictDevicePlaintext handle).1 = (cache.devicePlaintexts.lookup handle).isSome := by
  rw [evictDevicePlaintext, untrackPlaintext, stored]

@[simp] theorem evictDevicePlaintext_owners (handle : Handle) :
    (cache.evictDevicePlaintext handle).2.owners = cache.owners := by
  unfold evictDevicePlaintext untrackPlaintext
  split <;> rfl

/-- An eviction of a tracked handle keeps the ledger. -/
theorem evict_ledger (ledger : cache.Ledger)
    (stored : cache.plaintextCache.lookup handle = some entry) :
    (cache.evictDevicePlaintext handle).2.Ledger := by
  have change := KeyedMap.total_erase PlaintextCacheEntry.bytes handle cache.plaintextCache
  have small := ledger.bytes_le stored
  rw [stored, Option.elim_some, ← ledger.bytes] at change
  rw [evictDevicePlaintext_known stored]
  constructor
  case bytes =>
    change cache.plaintextResidentBytes - min entry.bytes cache.plaintextResidentBytes =
      KeyedMap.total _ (cache.plaintextCache.erase handle)
    omega
  case lruNodup => exact ledger.lruNodup.erase handle
  case lruTracked =>
    intro other
    by_cases same : other = handle
    · subst same
      simp [ledger.lruNodup.not_mem_erase]
    · simp [List.mem_erase_of_ne same, AList.lookup_erase_ne same, ledger.lruTracked]
  case tracked =>
    intro other
    by_cases same : other = handle
    · subst same
      simp
    · simp [AList.lookup_erase_ne same, ledger.tracked]
  case pinned =>
    intro other member
    obtain ⟨different, before⟩ := Finset.mem_erase.mp member
    rw [AList.lookup_erase_ne different]
    exact ledger.pinned other before
  case nonzero =>
    by_cases same : (0 : Handle) = handle
    · rw [← same]
      exact AList.lookup_erase 0 _
    · rw [AList.lookup_erase_ne same]
      exact ledger.nonzero

/-- An owner that gives up its device copy keeps the books. -/
theorem release_books (books : cache.Books) {name : Name} {owner : PlaintextImpl Encoding}
    (live : cache.owners.lookup name = some owner) (loaded : owner.loaded = true)
    {owners : AList fun _ : Name => PlaintextImpl Encoding}
    (gives : ∀ after, owners.lookup name = some after → after.loaded = false)
    (others : ∀ other, other ≠ name → owners.lookup other = cache.owners.lookup other) :
    { (cache.evictDevicePlaintext owner.gpu).2 with owners := owners }.Books := by
  obtain ⟨bytes, stored⟩ := books.registered name owner live loaded
  have ledger := evict_ledger books.toLedger stored
  refine { ledger with owned := ?_, registered := ?_ }
  · intro handle entry found
    rw [evictDevicePlaintext_known stored] at found
    have different : handle ≠ owner.gpu := by
      rintro rfl
      change (cache.plaintextCache.erase owner.gpu).lookup owner.gpu = some entry at found
      rw [AList.lookup_erase] at found
      cases found
    have before : cache.plaintextCache.lookup handle = some entry :=
      (AList.lookup_erase_ne different).symm.trans found
    obtain ⟨holder, alive, holds, same⟩ := books.owned handle entry before
    have another : entry.owner ≠ name := by
      intro equal
      rw [equal, live] at alive
      cases alive
      exact different same.symm
    exact ⟨holder, (others _ another).trans alive, holds, same⟩
  · intro other holder alive holds
    have another : other ≠ name := by
      rintro rfl
      have unloaded := gives holder alive
      rw [unloaded] at holds
      cases holds
    have before := (others other another).symm.trans alive
    obtain ⟨held, found⟩ := books.registered other holder before holds
    have different : holder.gpu ≠ owner.gpu := fun same =>
      another (books.gpu_injective before live holds loaded same)
    rw [evictDevicePlaintext_known stored]
    exact ⟨held, (AList.lookup_erase_ne different).trans found⟩

/-- A change of the owners that are not loaded keeps the books. -/
theorem owners_books (books : cache.Books)
    {owners : AList fun _ : Name => PlaintextImpl Encoding} {name : Name}
    (before : ∀ owner, cache.owners.lookup name = some owner → owner.loaded = false)
    (after : ∀ owner, owners.lookup name = some owner → owner.loaded = false)
    (others : ∀ other, other ≠ name → owners.lookup other = cache.owners.lookup other) :
    { cache with owners := owners }.Books := by
  refine { books.toLedger with owned := ?_, registered := ?_ }
  · intro handle entry found
    obtain ⟨holder, alive, holds, same⟩ := books.owned handle entry found
    have another : entry.owner ≠ name := by
      intro equal
      have unloaded := before holder (equal ▸ alive)
      rw [unloaded] at holds
      cases holds
    exact ⟨holder, (others _ another).trans alive, holds, same⟩
  · intro other holder alive holds
    have another : other ≠ name := by
      rintro rfl
      have unloaded := after holder alive
      rw [unloaded] at holds
      cases holds
    exact books.registered other holder ((others other another).symm.trans alive) holds

/-- An offload by handle unloads the owner and evicts the device copy. -/
theorem offloadPlaintextHandle_known (books : cache.Books)
    (stored : cache.plaintextCache.lookup handle = some entry) :
    ∃ owner, cache.owners.lookup entry.owner = some owner ∧ owner.loaded = true ∧
      owner.gpu = handle ∧ (cache.offloadPlaintextHandle handle).1 = true ∧
      (cache.offloadPlaintextHandle handle).2 =
        { (cache.evictDevicePlaintext owner.gpu).2 with
          owners := cache.owners.insert entry.owner { owner with loaded := false, gpu := 0 } } := by
  obtain ⟨owner, live, loaded, same⟩ := books.owned handle entry stored
  have unloads : cache.unloadOwner entry =
      cache.setOwner entry.owner { owner with loaded := false, gpu := 0 } := by
    rw [unloadOwner, live]
  have kept : (cache.setOwner entry.owner
      { owner with loaded := false, gpu := 0 }).plaintextCache.lookup handle = some entry := stored
  refine ⟨owner, live, loaded, same, ?_, ?_⟩
  · simp only [offloadPlaintextHandle, stored]
    rw [unloads, evictDevicePlaintext_result kept]
    exact books.isSome_of_entry stored
  · simp only [offloadPlaintextHandle, stored]
    rw [unloads, evictDevicePlaintext_known kept, same, evictDevicePlaintext_known stored]
    rfl

theorem offloadPlaintextHandle_books (books : cache.Books) (handle : Handle) :
    (cache.offloadPlaintextHandle handle).2.Books := by
  cases stored : cache.plaintextCache.lookup handle with
  | none =>
      rw [offloadPlaintextHandle, stored]
      exact books
  | some entry =>
      obtain ⟨owner, live, loaded, _, _, result⟩ := offloadPlaintextHandle_known books stored
      rw [result]
      apply release_books books live loaded
      · intro after found
        rw [AList.lookup_insert] at found
        cases found
        rfl
      · intro other different
        exact AList.lookup_insert_ne different

/-- A use only moves a handle to the front of the list. -/
theorem touchPlaintext_books (books : cache.Books) (handle : Handle) :
    (cache.touchPlaintext handle).Books := by
  unfold touchPlaintext
  cases stored : cache.plaintextCache.lookup handle with
  | none => exact books
  | some entry =>
      refine { books with lruNodup := ?_, lruTracked := ?_ }
      · exact List.nodup_cons.mpr ⟨books.lruNodup.not_mem_erase, books.lruNodup.erase handle⟩
      · intro other
        by_cases same : other = handle
        · subst same
          simp [stored]
        · simp [same, List.mem_erase_of_ne same, books.lruTracked]

/-- These steps evict plaintexts outside a set of kept handles and change no limit. -/
structure EvictsOutside (kept : Handle → Prop) (cache next : PlaintextCache Encoding) : Prop where
  budget : next.plaintextCacheBytes = cache.plaintextCacheBytes
  hold : next.plaintextCacheHold = cache.plaintextCacheHold
  pins : ∀ handle, kept handle →
    (handle ∈ next.plaintextPinned ↔ handle ∈ cache.plaintextPinned)
  entries : ∀ handle, kept handle →
    next.plaintextCache.lookup handle = cache.plaintextCache.lookup handle
  devices : ∀ handle, kept handle →
    next.devicePlaintexts.lookup handle = cache.devicePlaintexts.lookup handle
  unpinned : ∀ handle ∈ next.plaintextPinned, handle ∈ cache.plaintextPinned

variable {kept : Handle → Prop}

theorem EvictsOutside.rfl' : EvictsOutside kept cache cache :=
  ⟨rfl, rfl, fun _ _ => Iff.rfl, fun _ _ => rfl, fun _ _ => rfl, fun _ member => member⟩

theorem EvictsOutside.trans {last : PlaintextCache Encoding} (first : EvictsOutside kept cache next)
    (second : EvictsOutside kept next last) : EvictsOutside kept cache last where
  budget := second.budget.trans first.budget
  hold := second.hold.trans first.hold
  pins handle keeps := (second.pins handle keeps).trans (first.pins handle keeps)
  entries handle keeps := (second.entries handle keeps).trans (first.entries handle keeps)
  devices handle keeps := (second.devices handle keeps).trans (first.devices handle keeps)
  unpinned handle member := first.unpinned handle (second.unpinned handle member)

/-- One offload of a handle outside the kept ones evicts nothing else. -/
theorem offloadPlaintextHandle_evicts (books : cache.Books) {handle : Handle}
    (free : ¬kept handle) : EvictsOutside kept cache (cache.offloadPlaintextHandle handle).2 := by
  have different : ∀ other, kept other → other ≠ handle := fun other keeps same =>
    free (same ▸ keeps)
  cases stored : cache.plaintextCache.lookup handle with
  | none =>
      rw [offloadPlaintextHandle, stored]
      exact EvictsOutside.rfl'
  | some entry =>
      obtain ⟨owner, live, loaded, same, _, result⟩ := offloadPlaintextHandle_known books stored
      rw [result, same, evictDevicePlaintext_known stored]
      exact {
        budget := rfl
        hold := rfl
        pins := fun other keeps => by simp [different other keeps]
        entries := fun other keeps => AList.lookup_erase_ne (different other keeps)
        devices := fun other keeps => AList.lookup_erase_ne (different other keeps)
        unpinned := fun other member => Finset.mem_of_mem_erase member }

/-- The total respects the budget when it is unlimited or large enough. -/
def WithinBudget (cache : PlaintextCache Encoding) : Prop :=
  cache.plaintextCacheBytes = sizeMax ∨ cache.plaintextResidentBytes ≤ cache.plaintextCacheBytes

/-- A chosen victim is neither protected nor pinned. -/
theorem victim_free {protect : Handle} (chosen : cache.victim protect ≠ 0) :
    cache.victim protect ≠ protect ∧ cache.victim protect ∉ cache.plaintextPinned := by
  unfold victim at chosen ⊢
  cases found : cache.plaintextLru.reverse.find? fun handle =>
      handle ≠ protect ∧ handle ∉ cache.plaintextPinned with
  | none =>
      rw [found] at chosen
      exact absurd rfl chosen
  | some handle => simpa using List.find?_some found

/-- Without a victim every listed handle is protected or pinned. -/
theorem stays_of_no_victim (ledger : cache.Ledger) {protect : Handle}
    (none : cache.victim protect = 0) :
    ∀ handle ∈ cache.plaintextLru, handle = protect ∨ handle ∈ cache.plaintextPinned := by
  intro handle listed
  unfold victim at none
  cases found : cache.plaintextLru.reverse.find? fun handle =>
      handle ≠ protect ∧ handle ∉ cache.plaintextPinned with
  | none =>
      have all := List.find?_eq_none.mp found handle (List.mem_reverse.mpr listed)
      by_contra neither
      exact all (by simpa using neither)
  | some other =>
      rw [found] at none
      have member := List.mem_reverse.mp (List.mem_of_find?_eq_some found)
      exact absurd none (ledger.listed_ne_zero member)

/-- A chosen victim is really evicted. -/
theorem victim_offloads (books : cache.Books) {protect : Handle}
    (chosen : cache.victim protect ≠ 0) :
    (cache.offloadPlaintextHandle (cache.victim protect)).1 = true := by
  obtain ⟨entry, stored⟩ := books.entry_of_listed (victim_mem chosen)
  obtain ⟨_, _, _, _, offloads, _⟩ := offloadPlaintextHandle_known books stored
  exact offloads

/-- The eviction loop keeps the books and spares the protected and the pinned plaintexts. -/
theorem enforceLoop_keeps (protect : Handle) (cache : PlaintextCache Encoding)
    (books : cache.Books) : (cache.enforceLoop protect).Books ∧
      EvictsOutside (fun handle => handle = protect ∨ handle ∈ cache.plaintextPinned) cache
        (cache.enforceLoop protect) := by
  fun_induction enforceLoop protect cache with
  | case1 cache exceeds none => exact ⟨books, EvictsOutside.rfl'⟩
  | case2 cache exceeds chosen offloads ih =>
      have free : ¬(cache.victim protect = protect ∨
          cache.victim protect ∈ cache.plaintextPinned) := by
        have spared := victim_free chosen
        tauto
      have first := @offloadPlaintextHandle_evicts _ _
        (fun handle => handle = protect ∨ handle ∈ cache.plaintextPinned) books _ free
      obtain ⟨after, second⟩ := ih (offloadPlaintextHandle_books books _)
      refine ⟨after, first.trans ?_⟩
      have same : ∀ handle, (handle = protect ∨ handle ∈ cache.plaintextPinned) →
          (handle = protect ∨ handle ∈
            (cache.offloadPlaintextHandle (cache.victim protect)).2.plaintextPinned) :=
        fun handle keeps => keeps.imp_right fun pin => (first.pins handle (Or.inr pin)).mpr pin
      exact {
        budget := second.budget
        hold := second.hold
        pins := fun handle keeps => second.pins handle (same handle keeps)
        entries := fun handle keeps => second.entries handle (same handle keeps)
        devices := fun handle keeps => second.devices handle (same handle keeps)
        unpinned := second.unpinned }
  | case3 cache exceeds chosen stuck => exact absurd (victim_offloads books chosen) stuck
  | case4 cache under => exact ⟨books, EvictsOutside.rfl'⟩

/-- The eviction loop ends within the budget or with nothing left to evict. -/
theorem enforceLoop_settles (protect : Handle) (cache : PlaintextCache Encoding)
    (books : cache.Books) :
    (cache.enforceLoop protect).plaintextResidentBytes ≤
        (cache.enforceLoop protect).plaintextCacheBytes ∨
      ∀ handle ∈ (cache.enforceLoop protect).plaintextLru,
        handle = protect ∨ handle ∈ (cache.enforceLoop protect).plaintextPinned := by
  fun_induction enforceLoop protect cache with
  | case1 cache exceeds none => exact Or.inr (stays_of_no_victim books.toLedger none)
  | case2 cache exceeds chosen offloads ih => exact ih (offloadPlaintextHandle_books books _)
  | case3 cache exceeds chosen stuck => exact absurd (victim_offloads books chosen) stuck
  | case4 cache under => exact Or.inl (Nat.not_lt.mp under)

theorem enforcePlaintextBudget_keeps (books : cache.Books) (protect : Handle) :
    (cache.enforcePlaintextBudget protect).Books ∧
      EvictsOutside (fun handle => handle = protect ∨ handle ∈ cache.plaintextPinned) cache
        (cache.enforcePlaintextBudget protect) := by
  unfold enforcePlaintextBudget
  split
  case isTrue => exact ⟨books, EvictsOutside.rfl'⟩
  case isFalse => exact enforceLoop_keeps protect cache books

/-- An active hold defers every eviction of the budget. -/
theorem enforcePlaintextBudget_held (protect : Handle) (held : 0 < cache.plaintextCacheHold) :
    cache.enforcePlaintextBudget protect = cache := by
  rw [enforcePlaintextBudget, if_pos (Or.inr held)]

/-- Without a hold the budget is met, or only protected and pinned plaintexts are left. -/
theorem enforcePlaintextBudget_settles (books : cache.Books) (protect : Handle)
    (free : cache.plaintextCacheHold = 0) :
    (cache.enforcePlaintextBudget protect).WithinBudget ∨
      ∀ handle ∈ (cache.enforcePlaintextBudget protect).plaintextLru,
        handle = protect ∨ handle ∈ (cache.enforcePlaintextBudget protect).plaintextPinned := by
  unfold enforcePlaintextBudget
  split
  case isTrue enough =>
    left
    exact Or.inl (enough.resolve_right (by omega))
  case isFalse => exact (enforceLoop_settles protect cache books).imp_left Or.inr

theorem setPlaintextCache_books (books : cache.Books) (bytes : Nat) :
    (cache.setPlaintextCache bytes).Books :=
  (@enforcePlaintextBudget_keeps _ { cache with plaintextCacheBytes := bytes }
    { books with } 0).1

theorem offloadOver_books (handles : List Handle) (cache : PlaintextCache Encoding)
    (books : cache.Books) : (offloadOver handles cache).Books := by
  induction handles generalizing cache with
  | nil => exact books
  | cons handle rest ih => exact ih _ (offloadPlaintextHandle_books books handle)

theorem offloadPlaintexts_books (books : cache.Books) : cache.offloadPlaintexts.Books :=
  offloadOver_books _ cache books

theorem openHold_books (books : cache.Books) : cache.openHold.Books :=
  { books with }

theorem closeHold_books (books : cache.Books) : cache.closeHold.Books := by
  have released : { cache with plaintextCacheHold := cache.plaintextCacheHold - 1 }.Books :=
    { books with }
  unfold closeHold
  dsimp only
  split
  case isTrue => exact (enforcePlaintextBudget_keeps released 0).1
  case isFalse => exact released

/-- The end of the outermost hold meets the budget or leaves only pinned plaintexts. -/
theorem closeHold_settles (books : cache.Books) (outermost : cache.plaintextCacheHold = 1) :
    cache.closeHold.WithinBudget ∨
      ∀ handle ∈ cache.closeHold.plaintextLru, handle ∈ cache.closeHold.plaintextPinned := by
  have released : { cache with plaintextCacheHold := cache.plaintextCacheHold - 1 }.Books :=
    { books with }
  have free : cache.plaintextCacheHold - 1 = 0 := by omega
  have after := (closeHold_books books).toLedger
  unfold closeHold at after ⊢
  dsimp only at after ⊢
  rw [if_pos free] at after ⊢
  apply (enforcePlaintextBudget_settles released 0 free).imp_right
  intro stays handle listed
  exact (stays handle listed).resolve_left (after.listed_ne_zero listed)

/-- A registration and its entry keep the ledger. -/
theorem track_books (books : cache.Books) {name : Name} {owner : PlaintextImpl Encoding}
    {handle : Handle} (bytes : Nat) (live : cache.owners.lookup name = some owner)
    (unloaded : owner.loaded = false) (nonzero : handle ≠ 0)
    (fresh : cache.devicePlaintexts.lookup handle = none) :
    (((cache.registerDevicePlaintext handle bytes).setOwner name
      { owner with gpu := handle, loaded := true }).trackPlaintext handle name bytes).Books := by
  have untracked : cache.plaintextCache.lookup handle = none := by
    have known := books.tracked handle
    rw [fresh, Option.isSome_none] at known
    simpa using known
  have unlisted : handle ∉ cache.plaintextLru := by
    rw [books.lruTracked, untracked]
    simp
  unfold trackPlaintext setOwner registerDevicePlaintext
  dsimp only
  rw [KeyedMap.emplace_new fresh, KeyedMap.emplace_new untracked]
  constructor
  case owned =>
    intro other entry found
    rcases KeyedMap.lookup_insert_cases found with ⟨rfl, rfl⟩ | ⟨-, old⟩
    · exact ⟨_, AList.lookup_insert _, rfl, rfl⟩
    · obtain ⟨holder, alive, holds, equal⟩ := books.owned other entry old
      have another : entry.owner ≠ name := by
        intro equal
        rw [equal, live] at alive
        cases alive
        rw [unloaded] at holds
        cases holds
      exact ⟨holder, (AList.lookup_insert_ne another).trans alive, holds, equal⟩
  case registered =>
    intro other holder alive holds
    rcases KeyedMap.lookup_insert_cases alive with ⟨rfl, rfl⟩ | ⟨-, old⟩
    · exact ⟨bytes, AList.lookup_insert _⟩
    · obtain ⟨held, found⟩ := books.registered other holder old holds
      have different : holder.gpu ≠ handle := by
        intro equal
        rw [equal, untracked] at found
        cases found
      exact ⟨held, (AList.lookup_insert_ne different).trans found⟩
  case toLedger =>
    constructor
    case bytes =>
      change cache.plaintextResidentBytes + bytes = _
      rw [KeyedMap.total_insert_new _ _ untracked, books.bytes]
    case lruNodup => exact List.nodup_cons.mpr ⟨unlisted, books.lruNodup⟩
    case lruTracked =>
      intro other
      by_cases same : other = handle
      · subst same
        simp
      · simp [same, AList.lookup_insert_ne same, books.lruTracked]
    case tracked =>
      intro other
      by_cases same : other = handle
      · subst same
        simp
      · simp [AList.lookup_insert_ne same, books.tracked]
    case pinned =>
      intro other member
      by_cases same : other = handle
      · subst same
        simp
      · simpa [AList.lookup_insert_ne same] using books.pinned other member
    case nonzero =>
      rw [AList.lookup_insert_ne nonzero.symm]
      exact books.nonzero

/-- A destruction releases the device copy of a plaintext that knows its context. -/
theorem destroyPlaintext_books (books : cache.Books) (name : Name)
    (known : ∀ owner, cache.owners.lookup name = some owner → owner.loaded = true →
      owner.parentContext = true) : (cache.destroyPlaintext name).Books := by
  unfold destroyPlaintext
  cases live : cache.owners.lookup name with
  | none => exact books
  | some owner =>
      dsimp only
      cases loaded : owner.loaded with
      | false =>
          rw [if_neg (by simp)]
          apply @owners_books _ _ books _ name
          · intro before found
            rw [live] at found
            cases found
            exact loaded
          · intro after found
            rw [AList.lookup_erase] at found
            cases found
          · intro other different
            exact AList.lookup_erase_ne different
      | true =>
          obtain ⟨bytes, stored⟩ := books.registered name owner live loaded
          have listed := (books.lruTracked owner.gpu).mpr (by rw [stored]; rfl)
          rw [if_pos ⟨rfl, books.listed_ne_zero listed, known owner live loaded⟩,
            evictDevicePlaintext_owners]
          apply release_books books live loaded
          · intro after found
            rw [AList.lookup_erase] at found
            cases found
          · intro other different
            exact AList.lookup_erase_ne different

/-- A pin of a loaded plaintext keeps the books. -/
theorem pin_books (books : cache.Books) {handle : Handle}
    (registered : (cache.devicePlaintexts.lookup handle).isSome) :
    { cache with plaintextPinned := insert handle cache.plaintextPinned }.Books :=
  { books with
    pinned := by
      intro other member
      obtain rfl | before := Finset.mem_insert.mp member
      · exact registered
      · exact books.pinned other before }

theorem unpin_books (books : cache.Books) (handle : Handle) :
    { cache with plaintextPinned := cache.plaintextPinned.erase handle }.Books :=
  { books with
    pinned := fun other member => books.pinned other (Finset.mem_of_mem_erase member) }

end PlaintextCache
end Fideslib.Residency
