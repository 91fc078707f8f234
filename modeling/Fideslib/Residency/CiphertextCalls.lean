/-
This file proves that every call keeps the ciphertext cache and its owners consistent.
-/

import Fideslib.Residency.CiphertextBooks
import Fideslib.Residency.Context

namespace Fideslib.Residency

open ThrowingCalls

variable {Encoding : Type}

/-- The ciphertext side is consistent, and strictly so when every handle has an owner. -/
structure CiphertextInvariant (strict : Prop) (context : Context Encoding) : Prop where
  books : context.ciphertextSide.Books
  registered : ∀ name ct, context.ciphertexts.lookup name = some ct → ct.loaded = true →
    (context.ciphertextSide.deviceCiphertexts.lookup ct.gpu).isSome
  alone : ∀ first second one other, context.ciphertexts.lookup first = some one →
    context.ciphertexts.lookup second = some other → one.loaded = true → other.loaded = true →
    one.gpu = other.gpu → first = second
  named : ∀ name, (context.ciphertexts.lookup name).isSome → name < context.nextName
  nonzero : context.ciphertextSide.deviceCiphertexts.lookup 0 = none
  issued : context.nextGpuHandle ≠ 0 → ∀ handle,
    (context.ciphertextSide.deviceCiphertexts.lookup handle).isSome →
    handle < context.nextGpuHandle
  owned : strict → ∀ handle, (context.ciphertextSide.deviceCiphertexts.lookup handle).isSome →
    ∃ name ct, context.ciphertexts.lookup name = some ct ∧ ct.loaded = true ∧ ct.gpu = handle

theorem initial_ciphertextInvariant (strict : Prop) (devices : List Nat) :
    CiphertextInvariant strict (Context.initial devices : Context Encoding) where
  books := CiphertextCache.initial_books
  registered := by simp [Context.initial]
  alone := by simp [Context.initial]
  named := by simp [Context.initial]
  nonzero := rfl
  issued := by simp [Context.initial, CiphertextCache.initial]
  owned := by simp [Context.initial, CiphertextCache.initial]

/-- A counter that is not at its end grows. -/
theorem lt_next_handle {handle : Handle} (grows : handle + 1 ≠ 0) : handle < handle + 1 := by
  rw [UInt32.lt_iff_toNat_lt, UInt32.toNat_add]
  have bound := handle.toNat_lt
  have nonzero : (handle.toNat + (1 : UInt32).toNat) % 2 ^ 32 ≠ 0 := by
    intro zero
    apply grows
    apply UInt32.toNat_inj.mp
    rw [UInt32.toNat_add]
    exact zero
  change handle.toNat < (handle.toNat + 1) % 2 ^ 32
  change (handle.toNat + 1) % 2 ^ 32 ≠ 0 at nonzero
  omega

variable {strict : Prop} {context : Context Encoding}

namespace CiphertextInvariant

/-- A loaded ciphertext has a handle that is not null. -/
theorem gpu_ne_zero (invariant : CiphertextInvariant strict context) {name : Name}
    {ct : CiphertextImpl} (live : context.ciphertexts.lookup name = some ct)
    (loaded : ct.loaded = true) : ct.gpu ≠ 0 := by
  intro zero
  have known := invariant.registered name ct live loaded
  rw [zero, invariant.nonzero] at known
  cases known

/-- A change of the cache that keeps the handles keeps the invariant. -/
theorem side (invariant : CiphertextInvariant strict context) {next : CiphertextCache}
    (books : next.Books) (same : context.ciphertextSide.SameHandles next) :
    CiphertextInvariant strict { context with ciphertextSide := next } where
  books := books
  registered name ct live loaded := by
    rw [same]
    exact invariant.registered name ct live loaded
  alone := invariant.alone
  named := invariant.named
  nonzero := by
    have zero := same 0
    rw [invariant.nonzero] at zero
    simpa using zero
  issued fresh handle known := by
    rw [same] at known
    exact invariant.issued fresh handle known
  owned holds handle known := by
    rw [same] at known
    exact invariant.owned holds handle known

/-- The next handle is not registered. -/
theorem unused (invariant : CiphertextInvariant strict context)
    (fresh : context.nextGpuHandle ≠ 0) :
    context.ciphertextSide.deviceCiphertexts.lookup context.nextGpuHandle = none := by
  rw [← Option.not_isSome_iff_eq_none]
  intro known
  exact absurd (invariant.issued fresh _ known) (UInt32.lt_irrefl _)

theorem loaded_ne_next (invariant : CiphertextInvariant strict context)
    (fresh : context.nextGpuHandle ≠ 0) {handle : Name} {ct : CiphertextImpl}
    (live : context.ciphertexts.lookup handle = some ct) (loaded : ct.loaded = true) :
    ct.gpu ≠ context.nextGpuHandle := by
  intro equal
  have known := invariant.registered handle ct live loaded
  rw [equal, invariant.unused fresh] at known
  cases known

/-- A registration gives its handle to one ciphertext that was not loaded. -/
theorem adopt (invariant : CiphertextInvariant strict context) (footprint : Footprint)
    (fresh : context.nextGpuHandle ≠ 0) {name next : Name}
    (unloaded : ∀ ct, context.ciphertexts.lookup name = some ct → ct.loaded = false)
    (below : name < next) (grows : context.nextName ≤ next) :
    CiphertextInvariant strict
      { context with
        nextGpuHandle := context.nextGpuHandle + 1
        ciphertextSide := context.ciphertextSide.registerDeviceCiphertext context.nextGpuHandle
          ⟨footprint, false⟩
        ciphertexts := context.ciphertexts.insert name ⟨context.nextGpuHandle, true⟩
        nextName := next } := by
  have unused := invariant.unused fresh
  have registry : (context.ciphertextSide.registerDeviceCiphertext context.nextGpuHandle
      ⟨footprint, false⟩).deviceCiphertexts =
      context.ciphertextSide.deviceCiphertexts.insert context.nextGpuHandle ⟨footprint, false⟩ :=
    KeyedMap.emplace_new unused
  constructor
  case books => exact CiphertextCache.register_books invariant.books unused rfl
  case registered =>
    intro other ct live loaded
    rw [registry]
    rcases KeyedMap.lookup_insert_cases live with ⟨rfl, rfl⟩ | ⟨-, old⟩
    · simp
    · rw [AList.lookup_insert_ne (invariant.loaded_ne_next fresh old loaded)]
      exact invariant.registered other ct old loaded
  case alone =>
    intro first second one other firstLive secondLive firstLoaded secondLoaded equal
    rcases KeyedMap.lookup_insert_cases firstLive with ⟨rfl, rfl⟩ | ⟨-, firstOld⟩ <;>
      rcases KeyedMap.lookup_insert_cases secondLive with ⟨rfl, rfl⟩ | ⟨-, secondOld⟩
    · rfl
    · exact absurd equal.symm (invariant.loaded_ne_next fresh secondOld secondLoaded)
    · exact absurd equal (invariant.loaded_ne_next fresh firstOld firstLoaded)
    · exact invariant.alone first second one other firstOld secondOld firstLoaded secondLoaded equal
  case named =>
    intro other known
    by_cases same : other = name
    · rw [same]
      exact below
    · rw [AList.lookup_insert_ne same] at known
      exact (invariant.named other known).trans_le grows
  case nonzero =>
    rw [registry, AList.lookup_insert_ne fresh.symm]
    exact invariant.nonzero
  case issued =>
    intro continues handle known
    rw [registry] at known
    by_cases same : handle = context.nextGpuHandle
    · rw [same]
      exact lt_next_handle continues
    · rw [AList.lookup_insert_ne same] at known
      exact UInt32.lt_trans (invariant.issued fresh handle known) (lt_next_handle continues)
  case owned =>
    intro holds handle known
    rw [registry] at known
    by_cases same : handle = context.nextGpuHandle
    · exact ⟨name, _, AList.lookup_insert _, rfl, same.symm⟩
    · rw [AList.lookup_insert_ne same] at known
      obtain ⟨other, ct, live, loaded, equal⟩ := invariant.owned holds handle known
      have different : other ≠ name := by
        rintro rfl
        have not := unloaded ct live
        rw [loaded] at not
        cases not
      exact ⟨other, ct, (AList.lookup_insert_ne different).trans live, loaded, equal⟩

/-- A ciphertext that gives up its device copy keeps the invariant. -/
theorem release (invariant : CiphertextInvariant strict context) {name : Name}
    {ct : CiphertextImpl} (live : context.ciphertexts.lookup name = some ct)
    (loaded : ct.loaded = true) {ciphertexts : AList fun _ : Name => CiphertextImpl}
    (gives : ∀ after, ciphertexts.lookup name = some after → after.loaded = false)
    (others : ∀ other, other ≠ name →
      ciphertexts.lookup other = context.ciphertexts.lookup other) :
    CiphertextInvariant strict
      { context with
        ciphertextSide := (context.ciphertextSide.evictDeviceCiphertext ct.gpu).2
        ciphertexts := ciphertexts } := by
  have registry : (context.ciphertextSide.evictDeviceCiphertext ct.gpu).2.deviceCiphertexts =
      context.ciphertextSide.deviceCiphertexts.erase ct.gpu := by
    rw [CiphertextCache.evictDeviceCiphertext]
    simp
  have old : ∀ other after, ciphertexts.lookup other = some after → after.loaded = true →
      other ≠ name ∧ context.ciphertexts.lookup other = some after := by
    intro other after found holds
    have different : other ≠ name := by
      rintro rfl
      have unloaded := gives after found
      rw [holds] at unloaded
      cases unloaded
    exact ⟨different, (others other different).symm.trans found⟩
  constructor
  case books => exact CiphertextCache.evict_books invariant.books ct.gpu
  case registered =>
    intro other after found holds
    obtain ⟨different, before⟩ := old other after found holds
    have apart : after.gpu ≠ ct.gpu := fun equal =>
      different (invariant.alone other name after ct before live holds loaded equal)
    rw [registry, AList.lookup_erase_ne apart]
    exact invariant.registered other after before holds
  case alone =>
    intro first second one other firstLive secondLive firstLoaded secondLoaded equal
    exact invariant.alone first second one other (old first one firstLive firstLoaded).2
      (old second other secondLive secondLoaded).2 firstLoaded secondLoaded equal
  case named =>
    intro other known
    by_cases same : other = name
    · rw [same]
      exact invariant.named name (by rw [live]; rfl)
    · rw [others other same] at known
      exact invariant.named other known
  case nonzero =>
    rw [registry, AList.lookup_erase_ne (invariant.gpu_ne_zero live loaded).symm]
    exact invariant.nonzero
  case issued =>
    intro fresh handle known
    rw [registry] at known
    by_cases same : handle = ct.gpu
    · subst same
      rw [AList.lookup_erase] at known
      cases known
    · rw [AList.lookup_erase_ne same] at known
      exact invariant.issued fresh handle known
  case owned =>
    intro holds handle known
    rw [registry] at known
    have apart : handle ≠ ct.gpu := by
      rintro rfl
      rw [AList.lookup_erase] at known
      cases known
    rw [AList.lookup_erase_ne apart] at known
    obtain ⟨other, owner, before, holdsHandle, equal⟩ := invariant.owned holds handle known
    have different : other ≠ name := by
      rintro rfl
      rw [live] at before
      cases before
      exact apart equal.symm
    exact ⟨other, owner, (others other different).trans before, holdsHandle, equal⟩

/-- A ciphertext without a device copy may be added, overwritten or removed. -/
theorem objects (invariant : CiphertextInvariant strict context) {name next : Name}
    {ciphertexts : AList fun _ : Name => CiphertextImpl}
    (before : strict → ∀ ct, context.ciphertexts.lookup name = some ct → ct.loaded = false)
    (after : ∀ ct, ciphertexts.lookup name = some ct → ct.loaded = false)
    (others : ∀ other, other ≠ name → ciphertexts.lookup other = context.ciphertexts.lookup other)
    (below : (ciphertexts.lookup name).isSome → name < next) (grows : context.nextName ≤ next) :
    CiphertextInvariant strict { context with ciphertexts := ciphertexts, nextName := next } := by
  have old : ∀ other ct, ciphertexts.lookup other = some ct → ct.loaded = true →
      context.ciphertexts.lookup other = some ct := by
    intro other ct found holds
    have different : other ≠ name := by
      rintro rfl
      have unloaded := after ct found
      rw [holds] at unloaded
      cases unloaded
    exact (others other different).symm.trans found
  refine { invariant with registered := ?_, alone := ?_, named := ?_, owned := ?_ }
  · intro other ct found holds
    exact invariant.registered other ct (old other ct found holds) holds
  · intro first second one other firstLive secondLive firstLoaded secondLoaded equal
    exact invariant.alone first second one other (old first one firstLive firstLoaded)
      (old second other secondLive secondLoaded) firstLoaded secondLoaded equal
  · intro other known
    by_cases same : other = name
    · subst same
      exact below known
    · rw [others other same] at known
      exact (invariant.named other known).trans_le grows
  · intro holds handle known
    obtain ⟨other, ct, live, loaded, equal⟩ := invariant.owned holds handle known
    have different : other ≠ name := by
      rintro rfl
      have unloaded := before holds ct live
      rw [loaded] at unloaded
      cases unloaded
    exact ⟨other, ct, (others other different).trans live, loaded, equal⟩

end CiphertextInvariant

/-- The counter stays or moves by one from a value that is not null. -/
def CounterMoves (before after : Context Encoding) : Prop :=
  after.nextGpuHandle = before.nextGpuHandle ∨
    before.nextGpuHandle ≠ 0 ∧ after.nextGpuHandle = before.nextGpuHandle + 1

/-- A ciphertext call keeps the invariant and does not touch the plaintext side. -/
structure CiphertextStep (strict : Prop) (before after : Context Encoding) : Prop where
  invariant : CiphertextInvariant strict after
  plaintexts : after.plaintextSide = before.plaintextSide
  names : before.nextName ≤ after.nextName
  counter : CounterMoves before after

/-- A call that changes nothing is a step. -/
theorem CiphertextInvariant.still (invariant : CiphertextInvariant strict context) :
    CiphertextStep strict context context :=
  ⟨invariant, rfl, le_rfl, Or.inl rfl⟩

/-- A change of the cache that keeps the handles is a step. -/
theorem onCiphertexts_step (invariant : CiphertextInvariant strict context)
    {change : CiphertextCache → CiphertextCache} (books : (change context.ciphertextSide).Books)
    (same : context.ciphertextSide.SameHandles (change context.ciphertextSide)) :
    Triple (· = context) (onCiphertexts change) (fun _ => CiphertextStep strict context)
      (CiphertextStep strict context) :=
  Triple.modifies ⟨invariant.side books same, rfl, le_rfl, Or.inl rfl⟩

/-- The accessor only changes the cache, and a fetched ciphertext is resident. -/
def Fetched (handle : Handle) (before after : Context Encoding) : Prop :=
  ∃ side : CiphertextCache, after = { before with ciphertextSide := side } ∧ side.Books ∧
    before.ciphertextSide.SameHandles side ∧
      ∃ held, side.deviceCiphertexts.lookup handle = some held ∧ held.isOffloaded = false

theorem Fetched.step {handle : Handle} {after : Context Encoding}
    (fetched : Fetched handle context after) (invariant : CiphertextInvariant strict context) :
    CiphertextStep strict context after := by
  obtain ⟨side, rfl, books, same, _⟩ := fetched
  exact ⟨invariant.side books same, rfl, le_rfl, Or.inl rfl⟩

/-- A fetch of an unknown handle throws and changes nothing. -/
theorem getDeviceCiphertext_triple (invariant : CiphertextInvariant strict context)
    (handle : Handle) :
    Triple (· = context) (getDeviceCiphertext handle) (fun _ => Fetched handle context)
      (· = context) := by
  unfold getDeviceCiphertext
  apply Triple.reads
  cases fetched : context.ciphertextSide.getDeviceCiphertext handle with
  | none => exact Triple.throws rfl
  | some result =>
      obtain ⟨device, side⟩ := result
      apply Triple.writes
      apply Triple.returns
      exact ⟨side, rfl, CiphertextCache.getDeviceCiphertext_books invariant.books fetched,
        CiphertextCache.getDeviceCiphertext_sameHandles fetched,
        CiphertextCache.getDeviceCiphertext_resident fetched⟩

/-- A level query of a loaded ciphertext is a fetch. -/
theorem getLevel_triple (invariant : CiphertextInvariant strict context) {ct : CiphertextImpl}
    (loaded : ct.loaded = true) :
    Triple (· = context) (getLevel ct) (fun _ => Fetched ct.gpu context) (· = context) := by
  unfold getLevel
  rw [if_pos loaded]
  apply Triple.bind (getDeviceCiphertext_triple invariant ct.gpu)
  intro _ after fetched
  exact fetched

/-- A loaded ciphertext is resident, and the budget holds or nothing else may leave. -/
def Settled (name : Name) (context : Context Encoding) : Prop :=
  ∃ ct, context.ciphertexts.lookup name = some ct ∧ ct.loaded = true ∧
    ct.gpu ∈ context.ciphertextSide.ciphertextLru ∧
    (context.ciphertextSide.WithinBudget ∨ ∀ handle ∈ context.ciphertextSide.ciphertextLru,
      CiphertextCache.Stays ct.gpu context.ciphertextSide handle)

/-- The budget spares the protected ciphertext and settles. -/
theorem enforce_settles (invariant : CiphertextInvariant strict context) {name : Name}
    {ct : CiphertextImpl} (live : context.ciphertexts.lookup name = some ct)
    (loaded : ct.loaded = true)
    (resident : ∃ held, context.ciphertextSide.deviceCiphertexts.lookup ct.gpu = some held ∧
      held.isOffloaded = false) :
    CiphertextInvariant strict
        { context with ciphertextSide := context.ciphertextSide.enforceCiphertextBudget ct.gpu } ∧
      Settled name
        { context with
          ciphertextSide := context.ciphertextSide.enforceCiphertextBudget ct.gpu } := by
  obtain ⟨books, parks⟩ := CiphertextCache.enforceCiphertextBudget_keeps invariant.books ct.gpu
  obtain ⟨held, stored, present⟩ := resident
  refine ⟨invariant.side books parks.sameHandles, ct, live, loaded, ?_,
    CiphertextCache.enforceCiphertextBudget_settles invariant.books ct.gpu⟩
  rw [books.listed_iff]
  exact ⟨held, (parks.devices ct.gpu (Or.inl rfl)).trans stored, present⟩

/-- A registration returns the counter and moves it. -/
theorem registerDeviceCiphertext_triple (devices : context.devices ≠ []) (footprint : Footprint) :
    Triple (· = context) (registerDeviceCiphertext footprint)
      (fun handle after => handle = context.nextGpuHandle ∧
        after = { context with
          nextGpuHandle := context.nextGpuHandle + 1
          ciphertextSide := context.ciphertextSide.registerDeviceCiphertext context.nextGpuHandle
            ⟨footprint, false⟩ })
      (fun _ => False) := by
  unfold registerDeviceCiphertext
  apply Triple.reads
  rw [if_neg devices]
  apply Triple.writes
  exact Triple.returns ⟨rfl, rfl⟩

/-- A load keeps the invariant and settles the ciphertext. -/
theorem loadCiphertext_triple (invariant : CiphertextInvariant strict context) (name : Name)
    (upload : Footprint) (fresh : uploadsCiphertext name context → context.nextGpuHandle ≠ 0) :
    Triple (· = context) (loadCiphertext name upload)
      (fun _ after => CiphertextStep strict context after ∧
        (context.devices ≠ [] → (context.ciphertexts.lookup name).isSome → Settled name after))
      (CiphertextStep strict context) := by
  unfold loadCiphertext
  apply Triple.reads
  split
  case isTrue empty => exact Triple.returns ⟨invariant.still, fun some => absurd empty some⟩
  case isFalse devices =>
    cases live : context.ciphertexts.lookup name with
    | none => exact Triple.returns ⟨invariant.still, fun _ known => by cases known⟩
    | some ct =>
        dsimp only
        cases loaded : ct.loaded with
        | true =>
            rw [if_pos rfl, if_pos (invariant.gpu_ne_zero live loaded)]
            have known := invariant.registered name ct live loaded
            have reloaded := invariant.side
              (CiphertextCache.reloadCiphertext_books invariant.books ct.gpu)
              (CiphertextCache.reloadCiphertext_sameHandles ct.gpu)
            have settles := enforce_settles reloaded live loaded
              (CiphertextCache.reloadCiphertext_resident (invariant.gpu_ne_zero live loaded) known)
            exact Triple.modifies
              ⟨⟨settles.1, rfl, le_rfl, Or.inl rfl⟩, fun _ _ => settles.2⟩
        | false =>
            rw [if_neg (by simp)]
            split
            case isFalse => exact Triple.throws invariant.still
            case isTrue ready =>
              have nonzero := fresh ⟨devices, ready, ct, live, loaded⟩
              have unloaded : ∀ other, context.ciphertexts.lookup name = some other →
                  other.loaded = false := by
                intro other found
                rw [live] at found
                cases found
                exact loaded
              have adopted := invariant.adopt upload nonzero unloaded
                (invariant.named name (by rw [live]; rfl)) le_rfl
              have moves : CounterMoves context { context with
                  nextGpuHandle := context.nextGpuHandle + 1 } := Or.inr ⟨nonzero, rfl⟩
              apply Triple.bind ((registerDeviceCiphertext_triple devices upload).weaken
                (fun _ given => given) (fun _ _ given => given) fun _ never => never.elim)
              intro handle after given
              obtain ⟨rfl, rfl⟩ := given
              apply Triple.holds
              apply Triple.writes
              apply Triple.bind_still (getLevel_triple adopted rfl) ⟨adopted, rfl, le_rfl, moves⟩
              intro _ last fetched
              have kept := (fetched.step adopted).invariant
              obtain ⟨side, rfl, _, _, resident⟩ := fetched
              have settles := enforce_settles kept (AList.lookup_insert _) rfl resident
              exact Triple.modifies ⟨⟨settles.1, rfl, le_rfl, moves⟩, fun _ _ => settles.2⟩

/-- A registered handle is evicted. -/
theorem evict_succeeds {handle : Handle}
    (registered : (context.ciphertextSide.deviceCiphertexts.lookup handle).isSome) :
    (context.ciphertextSide.evictDeviceCiphertext handle).1 = true := by
  unfold CiphertextCache.evictDeviceCiphertext
  simpa using registered

/-- An unload brings the ciphertext back to the host and releases its handle. -/
theorem unloadCiphertext_triple (invariant : CiphertextInvariant strict context) (name : Name) :
    Triple (· = context) (unloadCiphertext name) (fun _ => CiphertextStep strict context)
      (CiphertextStep strict context) := by
  unfold unloadCiphertext
  apply Triple.reads
  cases live : context.ciphertexts.lookup name with
  | none => exact Triple.returns invariant.still
  | some ct =>
      dsimp only
      split
      case isFalse => exact Triple.returns invariant.still
      case isTrue loaded =>
        apply Triple.bind_still (getLevel_triple invariant loaded) invariant.still
        intro _ after fetched
        have kept := (fetched.step invariant).invariant
        obtain ⟨side, rfl, _, same, _⟩ := fetched
        apply Triple.reads
        apply Triple.writes
        have registered : (side.deviceCiphertexts.lookup ct.gpu).isSome := by
          rw [same]
          exact invariant.registered name ct live loaded
        dsimp only
        rw [if_pos (@evict_succeeds _ { context with ciphertextSide := side } _ registered)]
        refine Triple.modifies ⟨kept.release live loaded ?_ ?_, rfl, le_rfl, Or.inl rfl⟩
        · intro after found
          rw [AList.lookup_insert] at found
          cases found
          rfl
        · intro other different
          exact AList.lookup_insert_ne different

/-- No ciphertext has the next address yet. -/
theorem CiphertextInvariant.unnamed (invariant : CiphertextInvariant strict context)
    (ct : CiphertextImpl) (found : context.ciphertexts.lookup context.nextName = some ct) :
    ct.loaded = false :=
  absurd (invariant.named context.nextName (by rw [found]; rfl)) (Nat.lt_irrefl _)

/-- A new ciphertext starts on the host. -/
theorem newCiphertext_triple (invariant : CiphertextInvariant strict context) :
    Triple (· = context) (newCiphertext ⟨0, false⟩) (fun _ => CiphertextStep strict context)
      (CiphertextStep strict context) := by
  refine Triple.modifies ⟨invariant.objects (fun _ => invariant.unnamed) ?_ ?_
    (fun _ => Nat.lt_succ_self _) (Nat.le_succ _), rfl, Nat.le_succ _, Or.inl rfl⟩
  · intro after found
    rw [AList.lookup_insert] at found
    cases found
    rfl
  · intro other different
    exact AList.lookup_insert_ne different

/-- A copy registers its own device object under a handle of its own. -/
theorem cloneCiphertext_triple (invariant : CiphertextInvariant strict context) (source : Name)
    (limbBytes reloadBytes : Nat)
    (fresh : (Call.cloneCiphertext source limbBytes reloadBytes :
      Call Encoding).registers context → context.nextGpuHandle ≠ 0) :
    Triple (· = context) (cloneCiphertext source limbBytes reloadBytes)
      (fun _ => CiphertextStep strict context) (CiphertextStep strict context) := by
  unfold cloneCiphertext
  apply Triple.reads
  cases live : context.ciphertexts.lookup source with
  | none => exact Triple.returns invariant.still
  | some other =>
      dsimp only
      split
      case isFalse => exact newCiphertext_triple invariant
      case isTrue loaded =>
        unfold copyDeviceCiphertext
        rw [if_pos loaded]
        -- The copy hands its handle to the new object only when devices exist.
        apply @Triple.bind _ _ _ _ _ _ (CiphertextStep strict context) _ (fun handle after =>
          context.devices ≠ [] ∧ ∃ side footprint,
            CiphertextInvariant strict { context with ciphertextSide := side } ∧
              handle = context.nextGpuHandle ∧ after = { context with
                nextGpuHandle := context.nextGpuHandle + 1
                ciphertextSide := side.registerDeviceCiphertext context.nextGpuHandle
                  ⟨footprint, false⟩ })
        · apply Triple.bind_still (getDeviceCiphertext_triple invariant other.gpu) invariant.still
          intro device after fetched
          have kept := fetched.step invariant
          obtain ⟨side, rfl, _, _, _⟩ := fetched
          by_cases devices : context.devices = []
          · unfold registerDeviceCiphertext
            apply Triple.reads
            rw [if_pos devices]
            exact Triple.throws kept
          · exact (@registerDeviceCiphertext_triple _ { context with ciphertextSide := side } devices
              _).weaken (fun _ given => given)
              (fun _ _ given => ⟨devices, side, _, kept.invariant, given.1, given.2⟩)
              fun _ never => never.elim
        · rintro handle _ ⟨devices, side, footprint, kept, rfl, rfl⟩
          have nonzero := fresh ⟨devices, other, live, loaded⟩
          exact ⟨kept.adopt footprint nonzero invariant.unnamed (Nat.lt_succ_self _)
            (Nat.le_succ _), rfl, Nat.le_succ _, Or.inr ⟨nonzero, rfl⟩⟩

/-- A pin loads the ciphertext first. -/
theorem pinCiphertext_triple (invariant : CiphertextInvariant strict context) (name : Name)
    (upload : Footprint) (fresh : uploadsCiphertext name context → context.nextGpuHandle ≠ 0) :
    Triple (· = context) (pinCiphertext name upload) (fun _ => CiphertextStep strict context)
      (CiphertextStep strict context) := by
  unfold pinCiphertext
  apply Triple.bind (loadCiphertext_triple invariant name upload fresh)
  rintro _ after ⟨loads, _⟩
  have kept := loads.invariant
  apply Triple.holds
  apply Triple.reads
  cases live : after.ciphertexts.lookup name with
  | none => exact Triple.returns loads
  | some ct =>
      dsimp only
      split
      case isFalse => exact Triple.returns loads
      case isTrue ready =>
        have same := @CiphertextCache.reloadCiphertext_sameHandles after.ciphertextSide ct.gpu
        have books := CiphertextCache.reloadCiphertext_books kept.books ct.gpu
        refine Triple.modifies ⟨kept.side (CiphertextCache.pin_books books ?_) same,
          loads.plaintexts, loads.names, loads.counter⟩
        rw [same]
        exact kept.registered name ct live ready.1

theorem unpinCiphertext_triple (invariant : CiphertextInvariant strict context) (name : Name) :
    Triple (· = context) (unpinCiphertext name) (fun _ => CiphertextStep strict context)
      (CiphertextStep strict context) := by
  unfold unpinCiphertext
  apply Triple.reads
  cases live : context.ciphertexts.lookup name with
  | none => exact Triple.returns invariant.still
  | some ct =>
      dsimp only
      split
      case isFalse => exact Triple.returns invariant.still
      case isTrue =>
        obtain ⟨books, parks⟩ := CiphertextCache.enforceCiphertextBudget_keeps
          (CiphertextCache.unpin_books invariant.books ct.gpu) 0
        exact onCiphertexts_step invariant books parks.sameHandles

/-- The fetch of a getter is a step. -/
theorem getLevel_step (invariant : CiphertextInvariant strict context) (ct : CiphertextImpl) :
    Triple (· = context) (getLevel ct) (fun _ => CiphertextStep strict context)
      (CiphertextStep strict context) := by
  cases loaded : ct.loaded with
  | true =>
      apply (getLevel_triple invariant loaded).weaken (fun _ given => given)
      · intro _ after fetched
        exact fetched.step invariant
      · rintro _ rfl
        exact invariant.still
  | false =>
      rw [getLevel, if_neg (by simp [loaded])]
      exact Triple.returns invariant.still

theorem fetchCiphertext_triple (invariant : CiphertextInvariant strict context) (name : Name) :
    Triple (· = context) (fetchCiphertext name) (fun _ => CiphertextStep strict context)
      (CiphertextStep strict context) := by
  unfold fetchCiphertext
  apply Triple.reads
  cases context.ciphertexts.lookup name with
  | none => exact Triple.returns invariant.still
  | some ct => exact getLevel_step invariant ct

theorem computeCiphertext_triple (invariant : CiphertextInvariant strict context) (name : Name)
    (footprint : Footprint) :
    Triple (· = context) (computeCiphertext name footprint) (fun _ => CiphertextStep strict context)
      (CiphertextStep strict context) := by
  unfold computeCiphertext
  apply Triple.reads
  cases context.ciphertexts.lookup name with
  | none => exact Triple.returns invariant.still
  | some ct =>
      dsimp only
      split
      case isFalse => exact Triple.returns invariant.still
      case isTrue =>
        apply Triple.bind_still (getDeviceCiphertext_triple invariant ct.gpu) invariant.still
        intro _ after fetched
        have kept := (fetched.step invariant).invariant
        obtain ⟨side, rfl, books, _, _⟩ := fetched
        exact Triple.modifies ⟨kept.side (CiphertextCache.compute_books books ct.gpu footprint)
          (CiphertextCache.compute_sameHandles ct.gpu footprint), rfl, le_rfl, Or.inl rfl⟩

/-- A destroyed ciphertext releases its handle. -/
theorem destroyCiphertext_triple (invariant : CiphertextInvariant strict context) (name : Name) :
    Triple (· = context) (destroyCiphertext name) (fun _ => CiphertextStep strict context)
      (CiphertextStep strict context) := by
  unfold destroyCiphertext
  apply Triple.reads
  cases live : context.ciphertexts.lookup name with
  | none => exact Triple.returns invariant.still
  | some ct =>
      have gone : ∀ after, (context.ciphertexts.erase name).lookup name = some after →
          after.loaded = false := by
        intro after found
        rw [AList.lookup_erase] at found
        cases found
      refine Triple.modifies ⟨?_, rfl, le_rfl, Or.inl rfl⟩
      cases loaded : ct.loaded with
      | true =>
          rw [if_pos ⟨rfl, invariant.gpu_ne_zero live loaded⟩]
          exact invariant.release live loaded gone fun other different =>
            AList.lookup_erase_ne different
      | false =>
          rw [if_neg (by simp)]
          apply @CiphertextInvariant.objects _ _ _ invariant name _ _ ?_ gone
            (fun other different => AList.lookup_erase_ne different) ?_ le_rfl
          · intro _ before found
            rw [live] at found
            cases found
            exact loaded
          · intro known
            rw [AList.lookup_erase] at known
            cases known

/-- A deserialization keeps the invariant, and strictly so for a ciphertext that is not loaded. -/
theorem deserializeCiphertext_triple (invariant : CiphertextInvariant strict context) (name : Name)
    (unloaded : strict → ∀ ct, context.ciphertexts.lookup name = some ct → ct.loaded = false) :
    Triple (· = context) (deserializeCiphertext name) (fun _ => CiphertextStep strict context)
      (CiphertextStep strict context) := by
  unfold deserializeCiphertext
  apply Triple.reads
  cases live : context.ciphertexts.lookup name with
  | none => exact Triple.returns invariant.still
  | some ct =>
      refine Triple.modifies ⟨invariant.objects unloaded ?_ ?_ ?_ le_rfl, rfl, le_rfl, Or.inl rfl⟩
      · intro after found
        rw [AList.lookup_insert] at found
        cases found
        rfl
      · intro other different
        exact AList.lookup_insert_ne different
      · intro _
        exact invariant.named name (by rw [live]; rfl)

end Fideslib.Residency
