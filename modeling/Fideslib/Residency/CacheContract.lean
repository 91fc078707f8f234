/-
This file proves the contracts of the ciphertext and the plaintext cache over all runs.
-/

import Fideslib.Residency.PlaintextCalls
import Mathlib

namespace Fideslib.Residency

open ThrowingCalls StateMachine

variable {Encoding : Type} {context : Context Encoding} {strict : Prop}

/-- A call that takes a handle needs a counter that did not come back to the null handle. -/
def HandleLeft (call : Call Encoding) (context : Context Encoding) : Prop :=
  call.registers context → context.nextGpuHandle ≠ 0

/-- A deserialization does not overwrite a loaded ciphertext. -/
def KeepsOwner : Call Encoding → Context Encoding → Prop
  | .deserializeCiphertext name, context =>
      ∀ ct, context.ciphertexts.lookup name = some ct → ct.loaded = false
  | _, _ => True

/-- A loaded plaintext that is destroyed knows its context. -/
def KnowsContext : Call Encoding → Context Encoding → Prop
  | .destroyPlaintext name, context =>
      ∀ pt, context.plaintextSide.owners.lookup name = some pt → pt.loaded = true →
        pt.parentContext = true
  | _, _ => True

/-- The ciphertext cache meets its contract in one state. -/
structure CiphertextCacheContract (context : Context Encoding) : Prop where
  books : context.ciphertextSide.Books
  subtracts : ∀ handle entry, context.ciphertextSide.ciphertextCache.lookup handle = some entry →
    entry.resident = true → entry.bytes ≤ context.ciphertextSide.ciphertextResidentBytes
  loads : ∀ name upload, HandleLeft (.loadCiphertext name upload) context → context.devices ≠ [] →
    (context.ciphertexts.lookup name).isSome → ∀ after,
      (loadCiphertext name upload).run context = .ok () after → Settled name after
  spares : ∀ side : CiphertextCache, side.Books → ∀ protect, ∀ handle ∈ side.ciphertextPinned,
    (side.enforceCiphertextBudget protect).ciphertextCache.lookup handle =
        side.ciphertextCache.lookup handle ∧
      (side.enforceCiphertextBudget protect).deviceCiphertexts.lookup handle =
        side.deviceCiphertexts.lookup handle

/-- A decrypted plaintext has its new value and no device copy, no handle and no pin. -/
def Replaced (target : Name) (pt : PlaintextImpl Encoding) (value : Encoding)
    (after : Context Encoding) : Prop :=
  after.plaintextSide.owners.lookup target =
      some { pt with cpu := value, loaded := false, gpu := 0 } ∧
    (pt.loaded = true → after.plaintextSide.devicePlaintexts.lookup pt.gpu = none ∧
      pt.gpu ∉ after.plaintextSide.plaintextPinned)

/-- The plaintext cache meets its contract in one state. -/
structure PlaintextCacheContract (context : Context Encoding) : Prop where
  books : context.plaintextSide.Books
  owners : ∀ handle, (context.plaintextSide.devicePlaintexts.lookup handle).isSome ↔
    ∃ name pt, context.plaintextSide.owners.lookup name = some pt ∧ pt.loaded = true ∧
      pt.gpu = handle
  subtracts : ∀ handle entry, context.plaintextSide.plaintextCache.lookup handle = some entry →
    entry.bytes ≤ context.plaintextSide.plaintextResidentBytes
  held : ∀ side : PlaintextCache Encoding, 0 < side.plaintextCacheHold → ∀ protect,
    side.enforcePlaintextBudget protect = side
  released : ∀ side : PlaintextCache Encoding, side.Books → side.plaintextCacheHold = 1 →
    side.closeHold.WithinBudget ∨
      ∀ handle ∈ side.closeHold.plaintextLru, handle ∈ side.closeHold.plaintextPinned
  decrypts : ∀ name target value ct pt, context.ciphertexts.lookup name = some ct →
    context.plaintextSide.owners.lookup target = some pt →
    ((∃ after, (decrypt name (some target) value).run context = .ok () after ∧
      Replaced target pt value after) ↔ pt.loaded = false ∨ context.devices = [])

/-- Every handle has exactly one live owner, and without owners nothing is left. -/
structure OwnershipContract (context : Context Encoding) : Prop where
  ciphertexts : ∀ handle, (context.ciphertextSide.deviceCiphertexts.lookup handle).isSome ↔
    ∃! name, ∃ ct, context.ciphertexts.lookup name = some ct ∧ ct.loaded = true ∧ ct.gpu = handle
  plaintexts : ∀ handle, (context.plaintextSide.devicePlaintexts.lookup handle).isSome ↔
    ∃! name, ∃ pt, context.plaintextSide.owners.lookup name = some pt ∧ pt.loaded = true ∧
      pt.gpu = handle
  next : ∀ call : Call Encoding, HandleLeft call context → call.registers context →
    context.nextGpuHandle ≠ 0 ∧
      context.ciphertextSide.deviceCiphertexts.lookup context.nextGpuHandle = none ∧
      context.plaintextSide.devicePlaintexts.lookup context.nextGpuHandle = none
  emptied : (∀ name, context.ciphertexts.lookup name = none) →
    (∀ name, context.plaintextSide.owners.lookup name = none) →
    (∀ handle, context.ciphertextSide.deviceCiphertexts.lookup handle = none) ∧
      (∀ handle, context.plaintextSide.devicePlaintexts.lookup handle = none) ∧
      context.ciphertextSide.ciphertextResidentBytes = 0 ∧
      context.plaintextSide.plaintextResidentBytes = 0

/-- A call is a ciphertext step and then a plaintext step, and one of them may change nothing. -/
def CallMoves (strict safe : Prop) (before after : Context Encoding) : Prop :=
  ∃ fetched, CiphertextStep strict before fetched ∧ PlaintextStep safe fetched after

/-- A decryption is a fetch of the ciphertext and then a plaintext call. -/
theorem decrypt_triple {safe : Prop} (invariant : CiphertextInvariant strict context) (name : Name)
    (target : Option Name) (value : Encoding) :
    Triple (· = context) (decrypt name target value) (fun _ => CallMoves strict safe context)
      (CallMoves strict safe context) := by
  unfold decrypt
  apply Triple.reads
  cases context.ciphertexts.lookup name with
  | none => exact Triple.returns ⟨context, invariant.still, PlaintextStep.still⟩
  | some ct =>
      apply Triple.bind ((getLevel_step invariant ct).weaken (fun _ given => given)
        (fun _ _ given => given) fun after moves => ⟨after, moves, PlaintextStep.still⟩)
      intro _ after moves
      have ends : ∀ call : Api Encoding Unit,
          Triple (· = after) call (fun _ => PlaintextStep safe after) (PlaintextStep safe after) →
          Triple (· = after) call (fun _ => CallMoves strict safe context)
            (CallMoves strict safe context) := fun call holds =>
        holds.weaken (fun _ given => given) (fun _ _ given => ⟨after, moves, given⟩)
          fun _ given => ⟨after, moves, given⟩
      cases target with
      | some pt => exact (ends _ (decryptInto_step pt value)).holds
      | none => exact (ends _ (newPlaintext_step rfl)).holds

/-- Every call moves like this. The plaintext step is safe when a destroyed plaintext knows its
context. -/
theorem perform_moves {safe : Prop} (invariant : CiphertextInvariant strict context)
    (call : Call Encoding) (left : HandleLeft call context)
    (owners : strict → KeepsOwner call context) (known : safe → KnowsContext call context) :
    CallMoves strict safe context (final call.perform context) := by
  have of_step : ∀ body : Api Encoding Unit,
      Triple (· = context) body (fun _ => CiphertextStep strict context)
        (CiphertextStep strict context) → CallMoves strict safe context (final body context) :=
    fun body holds => (holds.weaken (fun _ given => given)
      (fun _ after moves => ⟨after, moves, PlaintextStep.still⟩)
      fun after moves => ⟨after, moves, PlaintextStep.still⟩).final rfl
  have of_same : ∀ body : Api Encoding Unit,
      Triple (· = context) body (fun _ => PlaintextStep safe context)
        (PlaintextStep safe context) → CallMoves strict safe context (final body context) :=
    fun body holds => (holds.weaken (fun _ given => given)
      (fun _ _ moves => ⟨context, invariant.still, moves⟩)
      fun _ moves => ⟨context, invariant.still, moves⟩).final rfl
  cases call with
  | setDevices devices => exact of_same _ (setDevices_step devices)
  | loadContext => exact of_same _ loadContext_step
  | encrypt => exact of_step _ (newCiphertext_triple invariant)
  | loadCiphertext name upload =>
      exact of_step _ ((loadCiphertext_triple invariant name upload left).weaken
        (fun _ given => given) (fun _ _ given => given.1) fun _ given => given)
  | unloadCiphertext name => exact of_step _ (unloadCiphertext_triple invariant name)
  | cloneCiphertext source limbBytes reloadBytes =>
      exact of_step _ (cloneCiphertext_triple invariant source limbBytes reloadBytes left)
  | offloadCiphertext handle =>
      exact of_step _ (onCiphertexts_step invariant
        (CiphertextCache.offloadCiphertext_books invariant.books handle)
        (CiphertextCache.offloadCiphertext_sameHandles handle))
  | reloadCiphertext handle =>
      exact of_step _ (onCiphertexts_step invariant
        (CiphertextCache.reloadCiphertext_books invariant.books handle)
        (CiphertextCache.reloadCiphertext_sameHandles handle))
  | pinCiphertext name upload => exact of_step _ (pinCiphertext_triple invariant name upload left)
  | unpinCiphertext name => exact of_step _ (unpinCiphertext_triple invariant name)
  | setCiphertextCache bytes =>
      obtain ⟨books, parks⟩ := @CiphertextCache.enforceCiphertextBudget_keeps
        { context.ciphertextSide with ciphertextCacheBytes := bytes }
        { invariant.books with } 0
      exact of_step _ (onCiphertexts_step invariant books parks.sameHandles)
  | offloadCiphertexts =>
      obtain ⟨books, parks⟩ := CiphertextCache.offloadOver_keeps context.ciphertextSide.ciphertextLru
        context.ciphertextSide invariant.books
      exact of_step _ (onCiphertexts_step invariant books parks.sameHandles)
  | fetchCiphertext name => exact of_step _ (fetchCiphertext_triple invariant name)
  | computeCiphertext name footprint =>
      exact of_step _ (computeCiphertext_triple invariant name footprint)
  | deserializeCiphertext name =>
      exact of_step _ (deserializeCiphertext_triple invariant name owners)
  | destroyCiphertext name => exact of_step _ (destroyCiphertext_triple invariant name)
  | makePlaintext value => exact of_same _ (newPlaintext_step rfl)
  | loadPlaintext name bytes => exact of_same _ (loadPlaintext_step name bytes left)
  | fetchPlaintext name => exact of_same _ (fetchPlaintext_step name)
  | pinPlaintext name bytes => exact of_same _ (pinPlaintext_step name bytes left)
  | unpinPlaintext name => exact of_same _ (unpinPlaintext_step name)
  | setPlaintextCache bytes =>
      exact of_same _ (onPlaintexts_step
        (fun _ books => PlaintextCache.setPlaintextCache_books books bytes)
        (@PlaintextCache.enforcePlaintextBudget_shrinks _
          { context.plaintextSide with plaintextCacheBytes := bytes } 0))
  | offloadPlaintexts =>
      exact of_same _ (onPlaintexts_step (fun _ => PlaintextCache.offloadPlaintexts_books)
        (PlaintextCache.offloadOver_shrinks _ _))
  | openHold =>
      exact of_same _ (onPlaintexts_step (fun _ => PlaintextCache.openHold_books)
        ⟨fun _ known => known, fun _ known => known⟩)
  | closeHold =>
      exact of_same _ (onPlaintexts_step (fun _ => PlaintextCache.closeHold_books)
        PlaintextCache.closeHold_shrinks)
  | destroyPlaintext name =>
      exact of_same _ (onPlaintexts_step
        (fun allowed books => PlaintextCache.destroyPlaintext_books books name (known allowed))
        (PlaintextCache.destroyPlaintext_shrinks name))
  | decrypt name target value =>
      exact ((decrypt_triple invariant name target value).weaken (fun _ given => given)
        (fun _ _ given => given) fun _ given => given).final rfl

/-- Every call keeps the ciphertext invariant. -/
theorem perform_ciphertexts (invariant : CiphertextInvariant strict context) (call : Call Encoding)
    (left : HandleLeft call context) (owners : strict → KeepsOwner call context) :
    CiphertextInvariant strict (final call.perform context) := by
  obtain ⟨fetched, fetches, moves⟩ :=
    @perform_moves _ _ _ False invariant call left owners fun never => never.elim
  exact moves.toSameCiphertexts.invariant fetches.invariant

/-- Every call keeps the plaintext invariant when a destroyed plaintext knows its context. -/
theorem perform_plaintexts (ciphertexts : CiphertextInvariant strict context)
    (invariant : PlaintextInvariant context) (call : Call Encoding)
    (left : HandleLeft call context) (owners : strict → KeepsOwner call context)
    (known : KnowsContext call context) : PlaintextInvariant (final call.perform context) := by
  obtain ⟨fetched, fetches, moves⟩ := perform_moves ciphertexts call left owners fun _ : True => known
  exact moves.invariant trivial (fetches.plaintextInvariant invariant)

/-- A triple that never throws gives the result of the run. -/
theorem run_of_triple {call : Api Encoding Unit} {ends : Context Encoding → Prop}
    (triple : Triple (· = context) call (fun _ => ends) (fun _ => False)) :
    ∃ after, call.run context = .ok () after ∧ ends after := by
  have holds := triple.holds
  cases result : call.run context with
  | ok _ after =>
      rw [result] at holds
      exact ⟨after, rfl, holds⟩
  | error fault after =>
      rw [result] at holds
      exact holds.elim

/-- The fetch of a live ciphertext never throws and leaves the plaintext side alone. -/
theorem getLevel_succeeds (invariant : CiphertextInvariant strict context) {name : Name}
    {ct : CiphertextImpl} (live : context.ciphertexts.lookup name = some ct) :
    Triple (· = context) (getLevel ct)
      (fun _ after => ∃ side, after = { context with ciphertextSide := side })
      (fun _ => False) := by
  unfold getLevel
  split
  case isFalse => exact Triple.returns ⟨context.ciphertextSide, rfl⟩
  case isTrue loaded =>
    have known := invariant.registered name ct live loaded
    obtain ⟨device, stored⟩ := Option.isSome_iff_exists.mp known
    unfold getDeviceCiphertext CiphertextCache.getDeviceCiphertext
    apply @Triple.bind _ _ _ _ _ _ _ _ fun _ after =>
      ∃ side, after = { context with ciphertextSide := side }
    · apply Triple.reads
      rw [stored]
      apply Triple.writes
      exact Triple.returns ⟨_, rfl⟩
    · intro _ after fetched
      exact fetched

/-- A decryption into a plaintext without a device copy replaces its value. -/
theorem decryptInto_replaces (invariant : PlaintextInvariant context) {target : Name}
    {pt : PlaintextImpl Encoding} (live : context.plaintextSide.owners.lookup target = some pt)
    (value : Encoding) (free : pt.loaded = false ∨ context.devices = []) :
    Triple (· = context) (decryptInto target value)
      (fun _ after => Replaced target pt value after) (fun _ => False) := by
  unfold decryptInto
  apply Triple.reads
  rw [live]
  dsimp only
  cases loaded : pt.loaded with
  | false =>
      rw [if_neg (by simp), if_neg (by simp)]
      exact Triple.modifies ⟨by simp [PlaintextCache.setOwner], fun held => by
        rw [loaded] at held
        cases held⟩
  | true =>
      have none : context.devices = [] := free.resolve_left (by simp [loaded])
      obtain ⟨bytes, stored⟩ := invariant.books.registered target pt live loaded
      have evicted := invariant.books.isSome_of_entry stored
      rw [← PlaintextCache.evictDevicePlaintext_result stored] at evicted
      rw [if_neg (by simp [none]), if_pos rfl, if_pos evicted]
      apply Triple.writes
      apply Triple.modifies
      dsimp only
      rw [PlaintextCache.evictDevicePlaintext_known stored]
      exact ⟨by simp [PlaintextCache.setOwner], fun _ =>
        ⟨AList.lookup_erase _ _, Finset.notMem_erase _ _⟩⟩

/-- A decryption into a loaded plaintext of a context with devices throws. -/
theorem decryptInto_throws {target : Name} {pt : PlaintextImpl Encoding}
    (live : context.plaintextSide.owners.lookup target = some pt) (value : Encoding)
    (loaded : pt.loaded = true) (devices : context.devices ≠ []) :
    Triple (· = context) (decryptInto target value) (fun _ _ => False) (fun _ => True) := by
  unfold decryptInto
  apply Triple.reads
  rw [live]
  dsimp only
  rw [if_pos ⟨loaded, devices⟩]
  exact Triple.throws trivial

/-- A decryption replaces its target exactly when the target has no device copy to release. -/
theorem decrypt_replaces_iff (ciphertexts : CiphertextInvariant strict context)
    (invariant : PlaintextInvariant context) {name target : Name} {ct : CiphertextImpl}
    {pt : PlaintextImpl Encoding} (value : Encoding)
    (liveCiphertext : context.ciphertexts.lookup name = some ct)
    (live : context.plaintextSide.owners.lookup target = some pt) :
    (∃ after, (decrypt name (some target) value).run context = .ok () after ∧
      Replaced target pt value after) ↔ pt.loaded = false ∨ context.devices = [] := by
  have fetches := getLevel_succeeds ciphertexts liveCiphertext
  constructor
  · rintro ⟨after, returned, _⟩
    by_contra blocked
    obtain ⟨loaded, devices⟩ := not_or.mp blocked
    have throws : Triple (· = context) (decrypt name (some target) value) (fun _ _ => False)
        (fun _ => True) := by
      unfold decrypt
      apply Triple.reads
      rw [liveCiphertext]
      apply Triple.bind (fetches.weaken (fun _ given => given) (fun _ _ given => given)
        fun _ _ => trivial)
      rintro _ _ ⟨side, rfl⟩
      exact (@decryptInto_throws _ { context with ciphertextSide := side } _ _ live value
        (by simpa using loaded) devices).holds
    have never := throws.holds
    rw [returned] at never
    exact never
  · intro free
    apply run_of_triple
    unfold decrypt
    apply Triple.reads
    rw [liveCiphertext]
    apply Triple.bind fetches
    rintro _ _ ⟨side, rfl⟩
    exact (@decryptInto_replaces _ { context with ciphertextSide := side }
      ⟨invariant.books, invariant.named, invariant.issued⟩ _ _ live value free).holds

/-- The ciphertext cache meets its contract in every run that does not use up the handles. -/
theorem ciphertextCache_contract (devices : List Nat)
    (run : Run step HandleLeft (Context.initial devices) context) :
    CiphertextCacheContract context := by
  have invariant : CiphertextInvariant False context := by
    apply run.invariant (CiphertextInvariant False) (initial_ciphertextInvariant False devices)
    rintro call before _ left ⟨_, rfl⟩ kept
    exact perform_ciphertexts kept call left fun never => never.elim
  constructor
  case books => exact invariant.books
  case subtracts => exact fun handle entry => invariant.books.bytes_le
  case loads =>
    intro name upload left devices live after returned
    have loaded := (loadCiphertext_triple invariant name upload left).holds
    rw [returned] at loaded
    exact loaded.2 devices live
  case spares =>
    intro side books protect handle pinned
    have parks := (CiphertextCache.enforceCiphertextBudget_keeps books protect).2
    exact ⟨parks.entries handle (Or.inr pinned), parks.devices handle (Or.inr pinned)⟩

/-- A pin, a budget and two loads meet the contract. -/
theorem ciphertextCache_contract_pinned :
    CiphertextCacheContract (performAll [.loadContext, .encrypt, .encrypt,
      .pinCiphertext 0 ⟨8, 8, false, false⟩, .setCiphertextCache 10,
      .loadCiphertext 1 ⟨8, 8, false, false⟩, .unloadCiphertext 0]
      (Context.initial [0] : Context Nat)) :=
  ciphertextCache_contract [0] (run_performAll _ _ .start
    ⟨trivial, fun _ => by decide, trivial, fun _ => by decide, trivial, fun _ => by decide,
      trivial, fun _ => by decide, trivial, fun _ => by decide, trivial, fun _ => by decide,
      trivial, fun _ => by decide, trivial⟩)

/-- One loaded ciphertext keeps the first handle while the counter stands at any value. -/
def cycled (next : Handle) : Context Nat where
  devices := [0]
  loaded := true
  nextGpuHandle := next
  ciphertextSide :=
    { deviceCiphertexts := AList.singleton 1 ⟨⟨1, 1, false, false⟩, false⟩
      ciphertextCacheBytes := sizeMax
      ciphertextResidentBytes := 1
      ciphertextCache := AList.singleton 1 ⟨1, true⟩
      ciphertextLru := [1]
      ciphertextPinned := ∅ }
  plaintextSide := PlaintextCache.initial
  ciphertexts := (AList.singleton 0 ⟨1, true⟩).insert 1 ⟨0, false⟩
  nextName := 2

/-- A second ciphertext takes the next handle. -/
def cycledLoaded (next : Handle) : Context Nat :=
  { cycled next with
    nextGpuHandle := next + 1
    ciphertextSide :=
      { deviceCiphertexts := (AList.singleton 1 ⟨⟨1, 1, false, false⟩, false⟩ :
          AList fun _ : Handle => DeviceCiphertext).insert next ⟨⟨1, 1, false, false⟩, false⟩
        ciphertextCacheBytes := sizeMax
        ciphertextResidentBytes := 2
        ciphertextCache := (AList.singleton 1 ⟨1, true⟩ :
          AList fun _ : Handle => CiphertextCacheEntry).insert next ⟨1, true⟩
        ciphertextLru := [next, 1]
        ciphertextPinned := ∅ }
    ciphertexts := (AList.singleton 0 ⟨1, true⟩).insert 1 ⟨next, true⟩ }

theorem lookup_singleton_ne {Value : Type} {handle : Handle} (other : handle ≠ 1) (value : Value) :
    (AList.singleton 1 value : AList fun _ : Handle => Value).lookup handle = none := by
  rw [AList.lookup_eq_none]
  simpa [AList.singleton, ← AList.mem_keys, AList.mem_mk] using other

/-- A load of the second ciphertext takes a handle other than the first one. -/
theorem cycled_load {next : Handle} (other : next ≠ 1) :
    final (Call.perform (.loadCiphertext 1 ⟨1, 1, false, false⟩)) (cycled next) =
      cycledLoaded next := by
  have device : (AList.singleton 1 ⟨⟨1, 1, false, false⟩, false⟩ :
      AList fun _ : Handle => DeviceCiphertext).lookup next = none := lookup_singleton_ne other _
  have entry : (AList.singleton 1 ⟨1, true⟩ :
      AList fun _ : Handle => CiphertextCacheEntry).lookup next = none :=
    lookup_singleton_ne other _
  have object : ((AList.singleton 0 (⟨1, true⟩ : CiphertextImpl)).insert 1 ⟨0, false⟩ :
      AList fun _ : Name => CiphertextImpl).lookup 1 = some ⟨0, false⟩ := rfl
  simp [final, Call.perform, loadCiphertext, registerDeviceCiphertext, getLevel,
    getDeviceCiphertext, onCiphertexts, setCiphertext, cycled, cycledLoaded, device, entry, object,
    CiphertextCache.registerDeviceCiphertext, CiphertextCache.trackCiphertext, KeyedMap.emplace,
    CiphertextCache.getDeviceCiphertext, DeviceCiphertext.reload, CiphertextCache.setDevice,
    CiphertextCache.touchCiphertext, CiphertextCache.enforceCiphertextBudget, AList.insert_insert,
    EStateM.run, bind, EStateM.bind, get, getThe, MonadStateOf.get, EStateM.get, modify, modifyGet,
    MonadStateOf.modifyGet, EStateM.modifyGet, pure, EStateM.pure]

/-- The unload of the second ciphertext only leaves the counter moved. -/
theorem cycled_unload {next : Handle} (other : next ≠ 1) :
    final (Call.perform (.unloadCiphertext 1)) (cycledLoaded next) = cycled (next + 1) := by
  have object : ((AList.singleton 0 (⟨1, true⟩ : CiphertextImpl)).insert 1 ⟨next, true⟩ :
      AList fun _ : Name => CiphertextImpl).lookup 1 = some ⟨next, true⟩ := rfl
  have erases : ∀ {Value : Type} (old value : Value),
      ((AList.singleton 1 old : AList fun _ : Handle => Value).insert next value).erase next =
        AList.singleton 1 old := by
    intro Value old value
    apply AList.ext
    have kept : List.kerase next [(⟨1, old⟩ : Sigma fun _ : Handle => Value)] = [⟨1, old⟩] :=
      List.kerase_cons_ne other
    simp [AList.erase, AList.singleton, kept]
  simp [final, Call.perform, unloadCiphertext, ensureUpToDateCpuCopy, getDeviceCiphertext,
    setCiphertext, cycled, cycledLoaded, object, erases, CiphertextCache.evictDeviceCiphertext,
    CiphertextCache.untrackCiphertext, CiphertextCache.getDeviceCiphertext,
    DeviceCiphertext.reload, CiphertextCache.setDevice, CiphertextCache.touchCiphertext,
    AList.insert_insert, EStateM.run, bind, EStateM.bind, get, getThe, MonadStateOf.get,
    EStateM.get, modify, modifyGet, MonadStateOf.modifyGet, EStateM.modifyGet, pure, EStateM.pure]

/-- Loads and unloads of the second ciphertext move the counter around to the first handle. -/
theorem cycled_run (cycles : Nat) (before : cycles < 2 ^ 32) :
    Run step (fun _ _ => True) (Context.initial [0]) (cycled (UInt32.ofNat (2 + cycles))) := by
  induction cycles with
  | zero =>
      exact run_performAll [.loadContext, .encrypt, .loadCiphertext 0 ⟨1, 1, false, false⟩, .encrypt]
        _ .start ⟨trivial, trivial, trivial, trivial, trivial, trivial, trivial, trivial, trivial⟩
  | succ cycles ih =>
      have other : UInt32.ofNat (2 + cycles) ≠ 1 := by
        intro same
        have value := congrArg UInt32.toNat same
        rw [UInt32.toNat_ofNat'] at value
        change (2 + cycles) % 2 ^ 32 = 1 at value
        omega
      have moved : UInt32.ofNat (2 + (cycles + 1)) = UInt32.ofNat (2 + cycles) + 1 := by
        apply UInt32.toNat_inj.mp
        rw [UInt32.toNat_add, UInt32.toNat_ofNat', UInt32.toNat_ofNat']
        change (2 + (cycles + 1)) % 2 ^ 32 = ((2 + cycles) % 2 ^ 32 + 1) % 2 ^ 32
        omega
      have loads : step (.loadCiphertext 1 ⟨1, 1, false, false⟩) _ _ :=
        ⟨trivial, (cycled_load other).symm⟩
      have unloads : step (.unloadCiphertext 1) _ _ := ⟨trivial, (cycled_unload other).symm⟩
      rw [moved]
      exact .next (.next (ih (by omega)) trivial loads) trivial unloads

/-- After the counter came around, a load is listed twice and its bytes are counted for nothing. -/
theorem ciphertextCache_wraps : ∃ context : Context Nat,
    Run step (fun _ _ => True) (Context.initial [0]) context ∧
      ¬context.ciphertextSide.ciphertextLru.Nodup ∧
      context.ciphertextSide.ciphertextResidentBytes ≠
        KeyedMap.total CiphertextCacheEntry.residentBytes
          context.ciphertextSide.ciphertextCache := by
  have around := cycled_run (2 ^ 32 - 1) (by omega)
  have first : UInt32.ofNat (2 + (2 ^ 32 - 1)) = 1 := rfl
  rw [first] at around
  refine ⟨_, .next around trivial
    (⟨trivial, rfl⟩ : step (.loadCiphertext 1 ⟨1, 1, false, false⟩) _ _), ?_, ?_⟩
  · decide
  · decide

/-- Both invariants hold in every run that keeps the owners of plaintexts. -/
theorem run_invariants (devices : List Nat) (run : Run step (fun call context =>
      HandleLeft call context ∧ (strict → KeepsOwner call context) ∧ KnowsContext call context)
      (Context.initial devices) context) :
    CiphertextInvariant strict context ∧ PlaintextInvariant context := by
  apply run.invariant
    (fun context => CiphertextInvariant strict context ∧ PlaintextInvariant context)
    ⟨initial_ciphertextInvariant strict devices, initial_plaintextInvariant devices⟩
  rintro call before _ ⟨left, owners, known⟩ ⟨_, rfl⟩ ⟨ciphertexts, plaintexts⟩
  exact ⟨perform_ciphertexts ciphertexts call left owners,
    perform_plaintexts ciphertexts plaintexts call left owners known⟩

/-- The plaintext cache meets its contract in every run that keeps its owners. -/
theorem plaintextCache_contract (devices : List Nat)
    (run : Run step (fun call context => HandleLeft call context ∧ KnowsContext call context)
      (Context.initial devices) context) : PlaintextCacheContract context := by
  obtain ⟨ciphertexts, invariant⟩ := @run_invariants _ context False devices
    (run.weaken fun call before meets => ⟨meets.1, fun never => never.elim, meets.2⟩)
  constructor
  case books => exact invariant.books
  case owners => exact invariant.books.registered_iff
  case subtracts => exact fun handle entry => invariant.books.bytes_le
  case held => exact fun side active protect =>
    PlaintextCache.enforcePlaintextBudget_held protect active
  case released => exact fun side books outermost =>
    PlaintextCache.closeHold_settles books outermost
  case decrypts => exact fun name target value ct pt liveCiphertext live =>
    decrypt_replaces_iff ciphertexts invariant value liveCiphertext live

/-- Loads inside a hold, a pin, a budget and a decryption meet the contract. -/
theorem plaintextCache_contract_held :
    PlaintextCacheContract (performAll [.loadContext, .encrypt, .makePlaintext 5,
      .openHold, .setPlaintextCache 4, .loadPlaintext 1 8, .fetchPlaintext 1, .decrypt 0 none 6,
      .closeHold] (Context.initial [0] : Context Nat)) :=
  plaintextCache_contract [0] (run_performAll _ _ .start
    ⟨trivial, ⟨fun _ => by decide, trivial⟩, trivial, ⟨fun _ => by decide, trivial⟩,
      trivial, ⟨fun _ => by decide, trivial⟩, trivial, ⟨fun _ => by decide, trivial⟩,
      trivial, ⟨fun _ => by decide, trivial⟩, trivial, ⟨fun _ => by decide, trivial⟩,
      trivial, ⟨fun _ => by decide, trivial⟩, trivial, ⟨fun _ => by decide, trivial⟩,
      Nat.one_pos, ⟨fun _ => by decide, trivial⟩, trivial⟩)

/-- A decryption into a loaded plaintext throws and leaves value, handle and device copy alone. -/
theorem decrypt_refuses_loaded : ∃ fault after,
    (decrypt 0 (some 1) 7).run (performAll [.loadContext, .encrypt, .makePlaintext 5,
      .loadPlaintext 1 8] (Context.initial [0] : Context Nat)) = .error fault after ∧
      after.plaintextSide.owners.lookup 1 = some ⟨5, 1, true, true⟩ ∧
      after.plaintextSide.devicePlaintexts.lookup 1 = some 8 :=
  ⟨_, _, rfl, rfl, rfl⟩

/-- Every handle has one owner in every run that does not drop an owner. -/
theorem handle_ownership (devices : List Nat)
    (run : Run step (fun call context =>
      HandleLeft call context ∧ KeepsOwner call context ∧ KnowsContext call context)
      (Context.initial devices) context) : OwnershipContract context := by
  obtain ⟨ciphertexts, plaintexts⟩ := @run_invariants _ context True devices
    (run.weaken fun call before meets => ⟨meets.1, fun _ => meets.2.1, meets.2.2⟩)
  have ciphertextOwner : ∀ handle,
      (context.ciphertextSide.deviceCiphertexts.lookup handle).isSome →
      ∃ name ct, context.ciphertexts.lookup name = some ct ∧ ct.loaded = true ∧ ct.gpu = handle :=
    ciphertexts.owned trivial
  constructor
  case ciphertexts =>
    intro handle
    constructor
    · intro known
      obtain ⟨name, ct, live, loaded, same⟩ := ciphertextOwner handle known
      refine ⟨name, ⟨ct, live, loaded, same⟩, ?_⟩
      rintro other ⟨another, otherLive, otherLoaded, otherSame⟩
      exact ciphertexts.alone other name another ct otherLive live otherLoaded loaded
        (otherSame.trans same.symm)
    · rintro ⟨name, ⟨ct, live, loaded, rfl⟩, _⟩
      exact ciphertexts.registered name ct live loaded
  case plaintexts =>
    intro handle
    rw [plaintexts.books.registered_iff]
    constructor
    · rintro ⟨name, pt, live, loaded, same⟩
      refine ⟨name, ⟨pt, live, loaded, same⟩, ?_⟩
      rintro other ⟨another, otherLive, otherLoaded, otherSame⟩
      exact plaintexts.books.gpu_injective otherLive live otherLoaded loaded
        (otherSame.trans same.symm)
    · rintro ⟨name, ⟨pt, live, loaded, same⟩, _⟩
      exact ⟨name, pt, live, loaded, same⟩
  case next =>
    intro call left registers
    have fresh := left registers
    refine ⟨fresh, ?_, ?_⟩
    · rw [← Option.not_isSome_iff_eq_none]
      intro known
      exact absurd (ciphertexts.issued fresh _ known) (UInt32.lt_irrefl _)
    · rw [← Option.not_isSome_iff_eq_none]
      intro known
      exact absurd (plaintexts.issued fresh _ known) (UInt32.lt_irrefl _)
  case emptied =>
    intro noCiphertexts noPlaintexts
    have noDevices : ∀ handle, context.ciphertextSide.deviceCiphertexts.lookup handle = none := by
      intro handle
      rw [← Option.not_isSome_iff_eq_none]
      intro known
      obtain ⟨name, ct, live, _, _⟩ := ciphertextOwner handle known
      rw [noCiphertexts name] at live
      cases live
    have noEncodings : ∀ handle, context.plaintextSide.devicePlaintexts.lookup handle = none := by
      intro handle
      rw [← Option.not_isSome_iff_eq_none, plaintexts.books.registered_iff]
      rintro ⟨name, pt, live, _, _⟩
      rw [noPlaintexts name] at live
      cases live
    refine ⟨noDevices, noEncodings, ?_, ?_⟩
    · rw [ciphertexts.books.bytes]
      apply KeyedMap.total_of_empty
      intro handle
      have tracked := ciphertexts.books.tracked handle
      rw [noDevices handle] at tracked
      simpa using tracked
    · rw [plaintexts.books.bytes]
      apply KeyedMap.total_of_empty
      intro handle
      have tracked := plaintexts.books.tracked handle
      rw [noEncodings handle] at tracked
      simpa using tracked

/-- A load, a copy, an unload and a destruction meet the contract. -/
theorem handle_ownership_copied :
    OwnershipContract (performAll [.loadContext, .encrypt, .loadCiphertext 0 ⟨8, 8, false, false⟩,
      .cloneCiphertext 0 8 8, .makePlaintext 5, .loadPlaintext 2 8, .unloadCiphertext 1,
      .destroyCiphertext 0] (Context.initial [0] : Context Nat)) :=
  handle_ownership [0] (run_performAll _ _ .start
    ⟨trivial, ⟨fun _ => by decide, trivial, trivial⟩, trivial,
      ⟨fun _ => by decide, trivial, trivial⟩, trivial, ⟨fun _ => by decide, trivial, trivial⟩,
      trivial, ⟨fun _ => by decide, trivial, trivial⟩, trivial,
      ⟨fun _ => by decide, trivial, trivial⟩, trivial, ⟨fun _ => by decide, trivial, trivial⟩,
      trivial, ⟨fun _ => by decide, trivial, trivial⟩, trivial,
      ⟨fun _ => by decide, trivial, trivial⟩, trivial⟩)

/-- A loaded ciphertext that is deserialized into leaves its handle and its bytes behind. -/
theorem deserialize_leaks :
    let context := performAll [.loadContext, .encrypt, .loadCiphertext 0 ⟨8, 8, false, false⟩,
      .deserializeCiphertext 0, .destroyCiphertext 0] (Context.initial [0] : Context Nat)
    context.ciphertexts.entries = [] ∧ context.plaintextSide.owners.entries = [] ∧
      (context.ciphertextSide.deviceCiphertexts.lookup 1).isSome = true ∧
      context.ciphertextSide.ciphertextResidentBytes = 8 :=
  ⟨rfl, rfl, rfl, rfl⟩

end Fideslib.Residency
