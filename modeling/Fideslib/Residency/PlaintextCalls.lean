/-
This file proves that every call keeps the plaintext cache and its owners consistent.
-/

import Fideslib.Residency.CiphertextCalls
import Fideslib.Residency.PlaintextBooks

namespace Fideslib.Residency

open ThrowingCalls

variable {Encoding : Type} {context : Context Encoding}

/-- The plaintext side is consistent with the names and the handles given out so far. -/
structure PlaintextInvariant (context : Context Encoding) : Prop where
  books : context.plaintextSide.Books
  named : ∀ name, (context.plaintextSide.owners.lookup name).isSome → name < context.nextName
  issued : context.nextGpuHandle ≠ 0 → ∀ handle,
    (context.plaintextSide.devicePlaintexts.lookup handle).isSome → handle < context.nextGpuHandle

theorem initial_plaintextInvariant (devices : List Nat) :
    PlaintextInvariant (Context.initial devices : Context Encoding) where
  books := PlaintextCache.initial_books
  named := by simp [Context.initial, PlaintextCache.initial]
  issued := by simp [Context.initial, PlaintextCache.initial]

/-- A plaintext call does not touch the ciphertext side. -/
structure SameCiphertexts (before after : Context Encoding) : Prop where
  side : after.ciphertextSide = before.ciphertextSide
  objects : after.ciphertexts = before.ciphertexts
  names : before.nextName ≤ after.nextName
  counter : CounterMoves before after

/-- A safe plaintext call keeps the plaintext invariant. -/
structure PlaintextStep (safe : Prop) (before after : Context Encoding) : Prop
    extends SameCiphertexts before after where
  invariant : safe → PlaintextInvariant before → PlaintextInvariant after

theorem SameCiphertexts.still : SameCiphertexts context context :=
  ⟨rfl, rfl, le_rfl, Or.inl rfl⟩

theorem PlaintextStep.still {safe : Prop} : PlaintextStep safe context context :=
  ⟨SameCiphertexts.still, fun _ invariant => invariant⟩

/-- A moved counter is larger than every handle that was given out. -/
theorem CounterMoves.lt {before after : Context Encoding} (moves : CounterMoves before after)
    (continues : after.nextGpuHandle ≠ 0) {handle : Handle}
    (issued : before.nextGpuHandle ≠ 0 → handle < before.nextGpuHandle) :
    handle < after.nextGpuHandle := by
  obtain same | ⟨fresh, moved⟩ := moves
  · rw [same] at continues ⊢
    exact issued continues
  · rw [moved] at continues ⊢
    exact UInt32.lt_trans (issued fresh) (lt_next_handle continues)

/-- The ciphertext invariant survives a call that does not touch the ciphertext side. -/
theorem SameCiphertexts.invariant {strict : Prop} {after : Context Encoding}
    (same : SameCiphertexts context after) (invariant : CiphertextInvariant strict context) :
    CiphertextInvariant strict after := by
  obtain ⟨side, objects, names, counter⟩ := same
  constructor
  case books => exact side ▸ invariant.books
  case registered =>
    rw [objects, side]
    exact invariant.registered
  case alone =>
    rw [objects]
    exact invariant.alone
  case named =>
    rw [objects]
    exact fun name known => (invariant.named name known).trans_le names
  case nonzero => exact side ▸ invariant.nonzero
  case issued =>
    rw [side]
    exact fun continues handle known =>
      counter.lt continues fun fresh => invariant.issued fresh handle known
  case owned =>
    rw [objects, side]
    exact invariant.owned

/-- The plaintext invariant survives a ciphertext call. -/
theorem CiphertextStep.plaintextInvariant {strict : Prop} {after : Context Encoding}
    (moves : CiphertextStep strict context after) (invariant : PlaintextInvariant context) :
    PlaintextInvariant after where
  books := moves.plaintexts ▸ invariant.books
  named := by
    rw [moves.plaintexts]
    exact fun name known => (invariant.named name known).trans_le moves.names
  issued := by
    rw [moves.plaintexts]
    exact fun continues handle known =>
      moves.counter.lt continues fun fresh => invariant.issued fresh handle known

/-- The names of the live plaintexts and the handles of the registry do not grow. -/
def Shrinks (before after : PlaintextCache Encoding) : Prop :=
  (∀ name, (after.owners.lookup name).isSome → (before.owners.lookup name).isSome) ∧
    ∀ handle, (after.devicePlaintexts.lookup handle).isSome →
      (before.devicePlaintexts.lookup handle).isSome

theorem Shrinks.rfl' {cache : PlaintextCache Encoding} : Shrinks cache cache :=
  ⟨fun _ known => known, fun _ known => known⟩

theorem Shrinks.trans {first second third : PlaintextCache Encoding} (one : Shrinks first second)
    (two : Shrinks second third) : Shrinks first third :=
  ⟨fun name known => one.1 name (two.1 name known),
    fun handle known => one.2 handle (two.2 handle known)⟩

/-- A change of the plaintext side that gives out nothing new is a step. -/
theorem onPlaintexts_step {safe : Prop} {change : PlaintextCache Encoding → PlaintextCache Encoding}
    (books : safe → context.plaintextSide.Books → (change context.plaintextSide).Books)
    (shrinks : Shrinks context.plaintextSide (change context.plaintextSide)) :
    Triple (· = context) (onPlaintexts change) (fun _ => PlaintextStep safe context)
      (PlaintextStep safe context) :=
  Triple.modifies ⟨⟨rfl, rfl, le_rfl, Or.inl rfl⟩, fun allowed invariant => {
    books := books allowed invariant.books
    named := fun name known => invariant.named name (shrinks.1 name known)
    issued := fun fresh handle known =>
      invariant.issued fresh handle (shrinks.2 handle known) }⟩

namespace PlaintextCache

variable {cache : PlaintextCache Encoding}

theorem setOwner_shrinks {name : Name} {owner : PlaintextImpl Encoding}
    (live : cache.owners.lookup name = some owner) (after : PlaintextImpl Encoding) :
    Shrinks cache (cache.setOwner name after) := by
  refine ⟨fun other known => ?_, fun _ known => known⟩
  by_cases same : other = name
  · rw [same, live]
    rfl
  · change ((cache.owners.insert name after).lookup other).isSome at known
    rwa [AList.lookup_insert_ne same] at known

theorem unloadOwner_shrinks (entry : PlaintextCacheEntry) :
    Shrinks cache (cache.unloadOwner entry) := by
  unfold unloadOwner
  cases live : cache.owners.lookup entry.owner with
  | none => exact Shrinks.rfl'
  | some owner => exact setOwner_shrinks live _

@[simp] theorem evictDevicePlaintext_devicePlaintexts (handle : Handle) :
    (cache.evictDevicePlaintext handle).2.devicePlaintexts = cache.devicePlaintexts.erase handle := by
  unfold evictDevicePlaintext untrackPlaintext
  split <;> rfl

theorem erase_isSome {handle other : Handle}
    (known : ((cache.devicePlaintexts.erase handle).lookup other).isSome) :
    (cache.devicePlaintexts.lookup other).isSome := by
  by_cases same : other = handle
  · subst same
    rw [AList.lookup_erase] at known
    cases known
  · rwa [AList.lookup_erase_ne same] at known

theorem evictDevicePlaintext_shrinks (handle : Handle) :
    Shrinks cache (cache.evictDevicePlaintext handle).2 := by
  refine ⟨fun name known => ?_, fun other known => ?_⟩
  · rwa [evictDevicePlaintext_owners] at known
  · rw [evictDevicePlaintext_devicePlaintexts] at known
    exact erase_isSome known

theorem offloadPlaintextHandle_shrinks (handle : Handle) :
    Shrinks cache (cache.offloadPlaintextHandle handle).2 := by
  unfold offloadPlaintextHandle
  split
  · exact Shrinks.rfl'
  · exact (unloadOwner_shrinks _).trans (evictDevicePlaintext_shrinks handle)

theorem enforceLoop_shrinks (protect : Handle) (cache : PlaintextCache Encoding) :
    Shrinks cache (cache.enforceLoop protect) := by
  fun_induction enforceLoop protect cache with
  | case1 => exact Shrinks.rfl'
  | case2 cache exceeds chosen offloads ih => exact (offloadPlaintextHandle_shrinks _).trans ih
  | case3 => exact offloadPlaintextHandle_shrinks _
  | case4 => exact Shrinks.rfl'

theorem enforcePlaintextBudget_shrinks (protect : Handle) :
    Shrinks cache (cache.enforcePlaintextBudget protect) := by
  unfold enforcePlaintextBudget
  split
  · exact Shrinks.rfl'
  · exact enforceLoop_shrinks protect cache

theorem offloadOver_shrinks (handles : List Handle) (cache : PlaintextCache Encoding) :
    Shrinks cache (offloadOver handles cache) := by
  induction handles generalizing cache with
  | nil => exact Shrinks.rfl'
  | cons handle rest ih => exact (offloadPlaintextHandle_shrinks handle).trans (ih _)

theorem closeHold_shrinks : Shrinks cache cache.closeHold := by
  unfold closeHold
  dsimp only
  split
  · exact @enforcePlaintextBudget_shrinks _
      { cache with plaintextCacheHold := cache.plaintextCacheHold - 1 } 0
  · exact Shrinks.rfl'

theorem touchPlaintext_shrinks (handle : Handle) : Shrinks cache (cache.touchPlaintext handle) := by
  unfold touchPlaintext
  split <;> exact Shrinks.rfl'

theorem destroyPlaintext_shrinks (name : Name) : Shrinks cache (cache.destroyPlaintext name) := by
  have erased : ∀ owners : AList fun _ : Name => PlaintextImpl Encoding, ∀ other,
      ((owners.erase name).lookup other).isSome → (owners.lookup other).isSome := by
    intro owners other known
    by_cases same : other = name
    · subst same
      rw [AList.lookup_erase] at known
      cases known
    · rwa [AList.lookup_erase_ne same] at known
  unfold destroyPlaintext
  cases cache.owners.lookup name with
  | none => exact Shrinks.rfl'
  | some owner =>
      dsimp only
      split
      · refine ⟨fun other known => ?_, (evictDevicePlaintext_shrinks owner.gpu).2⟩
        have kept := erased _ other known
        rwa [evictDevicePlaintext_owners] at kept
      · exact ⟨erased _, fun _ known => known⟩

end PlaintextCache

/-- The devices are chosen before the context is loaded. -/
theorem setDevices_step {safe : Prop} (devices : List Nat) :
    Triple (· = context) (setDevices devices) (fun _ => PlaintextStep safe context)
      (PlaintextStep safe context) := by
  unfold setDevices
  apply Triple.reads
  split
  · exact Triple.throws PlaintextStep.still
  · exact Triple.modifies ⟨⟨rfl, rfl, le_rfl, Or.inl rfl⟩, fun _ invariant =>
      ⟨invariant.books, invariant.named, invariant.issued⟩⟩

theorem loadContext_step {safe : Prop} :
    Triple (· = context) loadContext (fun _ => PlaintextStep safe context)
      (PlaintextStep safe context) := by
  apply Triple.modifies
  split
  · exact PlaintextStep.still
  · exact ⟨⟨rfl, rfl, le_rfl, Or.inl rfl⟩, fun _ invariant =>
      ⟨invariant.books, invariant.named, invariant.issued⟩⟩

/-- A new plaintext starts on the host. -/
theorem newPlaintext_step {safe : Prop} {pt : PlaintextImpl Encoding} (unloaded : pt.loaded = false) :
    Triple (· = context) (newPlaintext pt) (fun _ => PlaintextStep safe context)
      (PlaintextStep safe context) := by
  apply Triple.modifies
  refine ⟨⟨rfl, rfl, Nat.le_succ _, Or.inl rfl⟩, fun _ invariant => ?_⟩
  constructor
  case books =>
    apply @PlaintextCache.owners_books _ _ invariant.books _ context.nextName
    · intro owner found
      exact absurd (invariant.named context.nextName (by rw [found]; rfl)) (Nat.lt_irrefl _)
    · intro owner found
      rw [AList.lookup_insert] at found
      cases found
      exact unloaded
    · intro other different
      exact AList.lookup_insert_ne different
  case named =>
    intro name known
    by_cases same : name = context.nextName
    · rw [same]
      exact Nat.lt_succ_self _
    · change ((context.plaintextSide.owners.insert context.nextName pt).lookup name).isSome at known
      rw [AList.lookup_insert_ne same] at known
      exact (invariant.named name known).trans (Nat.lt_succ_self _)
  case issued => exact invariant.issued

/-- A load gives the plaintext the next handle. -/
theorem loadPlaintext_step {safe : Prop} (name : Name) (bytes : Nat)
    (fresh : uploadsPlaintext name context → context.nextGpuHandle ≠ 0) :
    Triple (· = context) (loadPlaintext name bytes) (fun _ => PlaintextStep safe context)
      (PlaintextStep safe context) := by
  unfold loadPlaintext
  apply Triple.reads
  cases live : context.plaintextSide.owners.lookup name with
  | none => exact Triple.returns PlaintextStep.still
  | some pt =>
      dsimp only
      split
      case isTrue => exact Triple.returns PlaintextStep.still
      case isFalse uploads =>
        split
        case isFalse => exact Triple.throws PlaintextStep.still
        case isTrue ready =>
          obtain ⟨notLoaded, devices⟩ := not_or.mp uploads
          have unloaded : pt.loaded = false := Bool.eq_false_iff.mpr notLoaded
          have nonzero := fresh ⟨devices, ready, pt, live, unloaded⟩
          unfold registerDevicePlaintext
          apply @Triple.bind _ _ _ _ _ _ _ _ (fun handle after =>
            handle = context.nextGpuHandle ∧ after = { context with
              nextGpuHandle := context.nextGpuHandle + 1
              plaintextSide :=
                context.plaintextSide.registerDevicePlaintext context.nextGpuHandle bytes })
          · apply Triple.reads
            rw [if_neg devices]
            apply Triple.writes
            exact Triple.returns ⟨rfl, rfl⟩
          · rintro _ _ ⟨rfl, rfl⟩
            change PlaintextStep safe context { context with
              nextGpuHandle := context.nextGpuHandle + 1
              plaintextSide := (((context.plaintextSide.registerDevicePlaintext
                context.nextGpuHandle bytes).setOwner name
                { pt with gpu := context.nextGpuHandle, loaded := true }).trackPlaintext
                context.nextGpuHandle name bytes).enforcePlaintextBudget context.nextGpuHandle }
            refine ⟨⟨rfl, rfl, le_rfl, Or.inr ⟨nonzero, rfl⟩⟩, fun _ invariant => ?_⟩
            have unused : context.plaintextSide.devicePlaintexts.lookup context.nextGpuHandle =
                none := by
              rw [← Option.not_isSome_iff_eq_none]
              intro known
              exact absurd (invariant.issued nonzero _ known) (UInt32.lt_irrefl _)
            have tracked := PlaintextCache.track_books invariant.books bytes live unloaded nonzero
              unused
            have shrinks := @PlaintextCache.enforcePlaintextBudget_shrinks _
              (((context.plaintextSide.registerDevicePlaintext context.nextGpuHandle bytes).setOwner
                name { pt with gpu := context.nextGpuHandle, loaded := true }).trackPlaintext
                context.nextGpuHandle name bytes) context.nextGpuHandle
            constructor
            case books => exact (PlaintextCache.enforcePlaintextBudget_keeps tracked _).1
            case named =>
              intro other known
              apply invariant.named other
              exact (PlaintextCache.setOwner_shrinks live _).1 other (shrinks.1 other known)
            case issued =>
              intro continues handle known
              have registered := shrinks.2 handle known
              change ((KeyedMap.emplace context.nextGpuHandle bytes
                context.plaintextSide.devicePlaintexts).lookup handle).isSome at registered
              rw [KeyedMap.emplace_new unused] at registered
              by_cases same : handle = context.nextGpuHandle
              · rw [same]
                exact lt_next_handle continues
              · rw [AList.lookup_insert_ne same] at registered
                exact UInt32.lt_trans (invariant.issued nonzero handle registered)
                  (lt_next_handle continues)

theorem fetchPlaintext_step {safe : Prop} (name : Name) :
    Triple (· = context) (fetchPlaintext name) (fun _ => PlaintextStep safe context)
      (PlaintextStep safe context) := by
  unfold fetchPlaintext
  apply Triple.reads
  cases live : context.plaintextSide.owners.lookup name with
  | none => exact Triple.returns PlaintextStep.still
  | some pt =>
      dsimp only
      cases fetched : context.plaintextSide.getDevicePlaintext pt.gpu with
      | none => exact Triple.throws PlaintextStep.still
      | some side =>
          obtain ⟨_, _, same⟩ := Option.map_eq_some_iff.mp fetched
          rw [← same]
          exact @onPlaintexts_step _ context safe
            (fun _ => context.plaintextSide.touchPlaintext pt.gpu)
            (fun _ books => PlaintextCache.touchPlaintext_books books pt.gpu)
            (PlaintextCache.touchPlaintext_shrinks pt.gpu)

/-- The guard of an operation adds only the eviction at its end. -/
theorem plaintextCacheHold_step {safe : Prop} {body : Api Encoding Unit}
    (inner : Triple (· = { context with plaintextSide := context.plaintextSide.openHold }) body
      (fun _ => PlaintextStep safe { context with plaintextSide := context.plaintextSide.openHold })
      (PlaintextStep safe { context with plaintextSide := context.plaintextSide.openHold })) :
    Triple (· = context) (plaintextCacheHold body) (fun _ => PlaintextStep safe context)
      (PlaintextStep safe context) := by
  have closes : ∀ after,
      PlaintextStep safe { context with plaintextSide := context.plaintextSide.openHold } after →
      PlaintextStep safe context { after with plaintextSide := after.plaintextSide.closeHold } := by
    rintro after ⟨⟨side, objects, names, counter⟩, keeps⟩
    refine ⟨⟨side, objects, names, counter⟩, fun allowed invariant => ?_⟩
    have kept := keeps allowed ⟨PlaintextCache.openHold_books invariant.books, invariant.named,
      invariant.issued⟩
    exact {
      books := PlaintextCache.closeHold_books kept.books
      named := fun name known => kept.named name (PlaintextCache.closeHold_shrinks.1 name known)
      issued := fun fresh handle known =>
        kept.issued fresh handle (PlaintextCache.closeHold_shrinks.2 handle known) }
  apply Triple.scope
  exact inner.weaken (fun _ given => given) (fun _ => closes) closes

/-- A change of the plaintext side after a step is part of the step. -/
theorem PlaintextStep.change {safe : Prop} {after : Context Encoding}
    (moves : PlaintextStep safe context after) {side : PlaintextCache Encoding}
    (books : safe → PlaintextInvariant after → side.Books) (shrinks : Shrinks after.plaintextSide side) :
    PlaintextStep safe context { after with plaintextSide := side } :=
  ⟨⟨moves.side, moves.objects, moves.names, moves.counter⟩, fun allowed invariant =>
    have kept := moves.invariant allowed invariant
    { books := books allowed kept
      named := fun name known => kept.named name (shrinks.1 name known)
      issued := fun fresh handle known => kept.issued fresh handle (shrinks.2 handle known) }⟩

/-- A pin loads the plaintext inside a hold. -/
theorem pinPlaintext_step {safe : Prop} (name : Name) (bytes : Nat)
    (fresh : uploadsPlaintext name context → context.nextGpuHandle ≠ 0) :
    Triple (· = context) (pinPlaintext name bytes) (fun _ => PlaintextStep safe context)
      (PlaintextStep safe context) := by
  apply plaintextCacheHold_step
  apply Triple.bind (@loadPlaintext_step _
    { context with plaintextSide := context.plaintextSide.openHold } safe name bytes fresh)
  intro _ after moves
  apply Triple.holds
  apply Triple.reads
  cases live : after.plaintextSide.owners.lookup name with
  | none => exact Triple.returns moves
  | some pt =>
      dsimp only
      split
      case isFalse => exact Triple.returns moves
      case isTrue loaded =>
        apply Triple.modifies
        refine moves.change ?_ ⟨fun _ known => known, fun _ known => known⟩
        intro _ kept
        apply PlaintextCache.pin_books kept.books
        rw [kept.books.registered_iff]
        exact ⟨name, pt, live, loaded, rfl⟩

theorem unpinPlaintext_step {safe : Prop} (name : Name) :
    Triple (· = context) (unpinPlaintext name) (fun _ => PlaintextStep safe context)
      (PlaintextStep safe context) := by
  apply plaintextCacheHold_step
  apply Triple.reads
  cases live : context.plaintextSide.openHold.owners.lookup name with
  | none => exact Triple.returns PlaintextStep.still
  | some pt =>
      dsimp only
      split
      case isFalse => exact Triple.returns PlaintextStep.still
      case isTrue =>
        apply onPlaintexts_step
        · intro _ books
          exact (PlaintextCache.enforcePlaintextBudget_keeps
            (PlaintextCache.unpin_books books pt.gpu) 0).1
        · exact @PlaintextCache.enforcePlaintextBudget_shrinks _
            { context.plaintextSide.openHold with
              plaintextPinned := context.plaintextSide.openHold.plaintextPinned.erase pt.gpu } 0

/-- A decryption into a plaintext without a device copy replaces its value. -/
theorem decryptInto_step {safe : Prop} (target : Name) (value : Encoding) :
    Triple (· = context) (decryptInto target value) (fun _ => PlaintextStep safe context)
      (PlaintextStep safe context) := by
  unfold decryptInto
  apply Triple.reads
  cases live : context.plaintextSide.owners.lookup target with
  | none => exact Triple.returns PlaintextStep.still
  | some pt =>
      have given : ∀ owners : AList fun _ : Name => PlaintextImpl Encoding, ∀ after,
          (owners.insert target { pt with cpu := value, loaded := false, gpu := 0 }).lookup target =
            some after → after.loaded = false := by
        intro owners after found
        rw [AList.lookup_insert] at found
        cases found
        rfl
      dsimp only
      split
      case isTrue => exact Triple.throws PlaintextStep.still
      case isFalse =>
        cases loaded : pt.loaded with
        | false =>
            rw [if_neg (by simp)]
            apply onPlaintexts_step ?_ (PlaintextCache.setOwner_shrinks live _)
            intro _ books
            apply @PlaintextCache.owners_books _ _ books _ target ?_ (given _)
              (fun other different => AList.lookup_insert_ne different)
            intro before found
            rw [live] at found
            cases found
            exact loaded
        | true =>
            rw [if_pos rfl]
            apply Triple.writes
            have evicts := @PlaintextCache.evictDevicePlaintext_shrinks _ context.plaintextSide pt.gpu
            split
            case isTrue =>
              apply Triple.modifies
              refine @PlaintextStep.change _ _ _ _ PlaintextStep.still _ ?_ ?_
              · intro _ invariant
                exact PlaintextCache.release_books invariant.books live loaded
                  (by
                    rw [PlaintextCache.evictDevicePlaintext_owners]
                    exact given _)
                  (by
                    rw [PlaintextCache.evictDevicePlaintext_owners]
                    exact fun other different => AList.lookup_insert_ne different)
              · apply evicts.trans
                apply PlaintextCache.setOwner_shrinks
                rw [PlaintextCache.evictDevicePlaintext_owners]
                exact live
            case isFalse stuck =>
              apply Triple.throws
              refine @PlaintextStep.change _ _ _ _ PlaintextStep.still _ ?_ evicts
              intro _ invariant
              obtain ⟨bytes, stored⟩ := invariant.books.registered target pt live loaded
              have known := invariant.books.isSome_of_entry stored
              rw [← PlaintextCache.evictDevicePlaintext_result stored] at known
              exact absurd known stuck

end Fideslib.Residency
