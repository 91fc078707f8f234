/-
This file proves that an operation reads the values of fresh uploads.
-/

import Fideslib.Transparency.Refinement

namespace Fideslib.Transparency

open Fideslib.CKKS Fideslib.Residency ThrowingCalls

variable {F : Type} {HostCiphertext : Type} {cc : ContextData F}
  {functions : Functions HostCiphertext cc}
  {machine after : Machine HostCiphertext cc} {reference : Reference HostCiphertext cc}
  {devices : List Nat}

theorem lift_simulates {State Shadow Value : Type} {relation : State → Shadow → Prop}
    {state : State} {shadow : Shadow} (related : relation state shadow)
    (outcome : Except Fault Value) :
    Simulates relation (lift outcome) (lift outcome) state shadow := by
  cases outcome with
  | ok value => exact .returns value related
  | error thrown => exact .throws thrown related

/-- The ciphertexts and the counter are no part of the plaintext cache. -/
theorem Tracks.outside (tracks : Tracks functions machine reference)
    (ciphertexts : Name → Option (CiphertextImpl HostCiphertext cc)) (handle : Handle) :
    Tracks functions { machine with ciphertexts := ciphertexts, nextGpuHandle := handle }
      { reference with ciphertexts := ciphertexts } := by
  obtain ⟨fresh, rfl⟩ := tracks
  exact ⟨⟨fresh.consistent, fresh.copies, fresh.running⟩, rfl⟩

theorem setCiphertext_simulates (held : HeldTracks functions devices machine reference)
    (name : Name) (ct : CiphertextImpl HostCiphertext cc) :
    Simulates (HeldTracks functions devices) (setCiphertext name ct)
      (Reference.setCiphertext name ct) machine reference := by
  obtain ⟨⟨fresh, rfl⟩, holds, same⟩ := held
  apply Simulates.modifies
  exact ⟨Tracks.outside ⟨fresh, rfl⟩ _ machine.nextGpuHandle, holds, same⟩

theorem registerDeviceCiphertext_hidden (held : HeldTracks functions devices machine reference) :
    Simulates (HeldTracks functions devices) registerDeviceCiphertext (pure ()) machine
      reference := by
  obtain ⟨⟨fresh, rfl⟩, holds, same⟩ := held
  apply Simulates.hides
  exact ⟨Tracks.outside ⟨fresh, rfl⟩ machine.ciphertexts _, holds, same⟩

/-- A load does nothing, throws or registers an upload. -/
theorem loadPlaintext_run (name : Name) (machine : Machine HostCiphertext cc) :
    (loadPlaintext functions name).run machine =
      match machine.plaintextSide.owners.lookup name with
      | none => .error .outOfRange machine
      | some pt =>
          if pt.loaded ∨ machine.devices = [] then .ok () machine
          else if machine.loaded then
            match uploadPlaintext functions pt.cpu with
            | .ok value =>
                .ok () (machine.registerDevicePlaintext name pt value (functions.limbBytes value))
            | .error thrown => .error thrown machine
          else .error (.openFHE "CryptoContext not loaded to any device") machine := by
  unfold loadPlaintext
  rw [EStateM.run_bind, EStateM.run_get]
  dsimp only
  cases machine.plaintextSide.owners.lookup name with
  | none => rfl
  | some pt =>
      dsimp only
      split
      case isTrue => rfl
      case isFalse =>
        split
        case isTrue =>
          cases uploadPlaintext functions pt.cpu with
          | ok value => rfl
          | error thrown => rfl
        case isFalse => rfl

theorem loadPlaintext_simulates (tracks : Tracks functions machine reference) {name : Name}
    (unused : LoadsFresh name machine) :
    Simulates (Tracks functions) (loadPlaintext functions name)
      (Reference.loadPlaintext functions name) machine reference := by
  obtain ⟨fresh, rfl⟩ := tracks
  have same : Tracks functions machine machine.reference := ⟨fresh, rfl⟩
  have called := @loadPlaintext_run _ _ _ functions name machine
  have specified := Reference.loadPlaintext_run functions name machine.reference
  have encoded : machine.reference.encodings name =
      (machine.plaintextSide.owners.lookup name).map PlaintextImpl.cpu := rfl
  rw [encoded] at specified
  cases live : machine.plaintextSide.owners.lookup name with
  | none =>
      rw [live] at called specified
      exact .of_error called specified same
  | some pt =>
      rw [live] at called specified
      dsimp only [Option.map_some] at called specified
      by_cases loaded : pt.loaded = true
      · obtain ⟨value, uploads, _⟩ := fresh.copies name pt live loaded
        obtain ⟨running, devices⟩ := fresh.running name pt live loaded
        have available : ¬machine.reference.devices = [] := devices
        have ready : machine.reference.loaded = true := running
        rw [if_pos (Or.inl loaded)] at called
        rw [if_neg available, if_pos ready, uploads] at specified
        exact .of_ok called specified same
      · by_cases devices : machine.devices = []
        · have none : machine.reference.devices = [] := devices
          rw [if_pos (Or.inr devices)] at called
          rw [if_pos none] at specified
          exact .of_ok called specified same
        · have available : ¬machine.reference.devices = [] := devices
          rw [if_neg (not_or.mpr ⟨loaded, devices⟩)] at called
          rw [if_neg available] at specified
          by_cases running : machine.loaded = true
          · have ready : machine.reference.loaded = true := running
            have unloaded : pt.loaded = false := Bool.eq_false_iff.mpr loaded
            rw [if_pos running] at called
            rw [if_pos ready] at specified
            cases uploads : uploadPlaintext functions pt.cpu with
            | error thrown =>
                rw [uploads] at called specified
                exact .of_error called specified same
            | ok value =>
                rw [uploads] at called specified
                exact .of_ok called specified (same.register live
                  (unused pt live unloaded running devices) uploads running devices _)
          · have stopped : ¬machine.reference.loaded = true := running
            rw [if_neg running] at called
            rw [if_neg stopped] at specified
            exact .of_error called specified same

/-- Under a guard the enforcement of the budget does nothing. -/
theorem registerDevicePlaintext_held (held : 0 < machine.plaintextSide.plaintextCacheHold)
    (name : Name) (pt : PlaintextImpl (Encoding F)) (value : Plaintext cc) (bytes : Nat) :
    (machine.registerDevicePlaintext name pt value bytes).plaintextSide =
      registered machine name pt bytes :=
  PlaintextCache.enforcePlaintextBudget_held machine.nextGpuHandle held

/-- Under a guard a load that returns on a device leaves the plaintext loaded. -/
theorem loadPlaintext_loaded (held : 0 < machine.plaintextSide.plaintextCacheHold)
    (devices : machine.devices ≠ []) {name : Name}
    (done : (loadPlaintext functions name).run machine = .ok () after) :
    ∃ pt, after.plaintextSide.owners.lookup name = some pt ∧ pt.loaded = true := by
  rw [loadPlaintext_run] at done
  split at done
  case h_1 => cases done
  case h_2 pt live =>
    split at done
    case isTrue loaded =>
      cases done
      exact ⟨pt, live, loaded.resolve_right devices⟩
    case isFalse =>
      split at done
      case isTrue =>
        split at done
        case h_1 value _ =>
          cases done
          rw [registerDevicePlaintext_held held]
          exact ⟨_, (registered_owner _ name).trans (if_pos rfl), rfl⟩
        case h_2 => cases done
      case isFalse => cases done

/-- A load ends in the same machine or in one more upload. -/
theorem loadPlaintext_final (name : Name) (machine : Machine HostCiphertext cc) :
    final (loadPlaintext functions name) machine = machine ∨
      ∃ pt value bytes, final (loadPlaintext functions name) machine =
        machine.registerDevicePlaintext name pt value bytes := by
  unfold final
  rw [loadPlaintext_run]
  cases machine.plaintextSide.owners.lookup name with
  | none => exact Or.inl rfl
  | some pt =>
      dsimp only
      by_cases still : pt.loaded = true ∨ machine.devices = []
      · rw [if_pos still]
        exact Or.inl rfl
      · rw [if_neg still]
        by_cases running : machine.loaded = true
        · rw [if_pos running]
          cases uploadPlaintext functions pt.cpu with
          | ok value => exact Or.inr ⟨pt, value, _, rfl⟩
          | error thrown => exact Or.inl rfl
        · rw [if_neg running]
          exact Or.inl rfl

/-- A load under a guard is simulated under the guard. -/
theorem loadPlaintext_held (held : HeldTracks functions devices machine reference) {name : Name}
    (unused : LoadsFresh name machine) :
    Simulates (HeldTracks functions devices) (loadPlaintext functions name)
      (Reference.loadPlaintext functions name) machine reference := by
  have kept : 0 < (final (loadPlaintext functions name) machine).plaintextSide.plaintextCacheHold ∧
      (final (loadPlaintext functions name) machine).devices = devices := by
    obtain same | ⟨pt, value, bytes, same⟩ := @loadPlaintext_final _ _ _ functions name machine
    · rw [same]
      exact ⟨held.hold, held.same⟩
    · rw [same, registerDevicePlaintext_held held.hold]
      exact ⟨held.hold, held.same⟩
  have strong : Simulates (fun after reached => Tracks functions after reached ∧
      0 < after.plaintextSide.plaintextCacheHold ∧ after.devices = devices)
      (loadPlaintext functions name) (Reference.loadPlaintext functions name) machine reference :=
    (loadPlaintext_simulates held.tracks unused).strengthen kept
  exact strong.weaken fun after reached related => ⟨related.1, related.2.1, related.2.2⟩

/-- A loaded plaintext is fetched as a fresh upload. -/
theorem fetchPlaintext_run (fresh : Fresh functions machine) {name : Name}
    {pt : PlaintextImpl (Encoding F)}
    (live : machine.plaintextSide.owners.lookup name = some pt) (loaded : pt.loaded = true) :
    ∃ value, uploadPlaintext functions pt.cpu = .ok value ∧
      machine.deviceValues pt.gpu = some value ∧
      (fetchPlaintext name).run machine = .ok value
        { machine with plaintextSide := machine.plaintextSide.touchPlaintext pt.gpu } := by
  obtain ⟨value, uploads, stored⟩ := fresh.copies name pt live loaded
  obtain ⟨bytes, known⟩ := Option.isSome_iff_exists.mp
    (fresh.consistent.registered name pt live loaded)
  refine ⟨value, uploads, stored, ?_⟩
  unfold fetchPlaintext
  rw [EStateM.run_bind, EStateM.run_get]
  dsimp only
  rw [live]
  dsimp only
  have fetched : machine.plaintextSide.getDevicePlaintext pt.gpu =
      some (machine.plaintextSide.touchPlaintext pt.gpu) := by
    rw [PlaintextCache.getDevicePlaintext, known]
    rfl
  rw [fetched, stored]
  rfl

theorem fetchPlaintext_simulates (held : HeldTracks functions devices machine reference)
    {name : Name} {pt : PlaintextImpl (Encoding F)}
    (live : machine.plaintextSide.owners.lookup name = some pt) (loaded : pt.loaded = true) :
    Simulates (HeldTracks functions devices) (fetchPlaintext name)
      (Reference.fetchPlaintext functions name) machine reference := by
  obtain ⟨⟨fresh, rfl⟩, holds, same⟩ := held
  obtain ⟨value, uploads, _, fetched⟩ := fetchPlaintext_run fresh live loaded
  obtain ⟨running, _⟩ := fresh.running name pt live loaded
  have encoded : machine.reference.encodings name = some pt.cpu := by
    change (machine.plaintextSide.owners.lookup name).map PlaintextImpl.cpu = _
    rw [live]
    rfl
  have ready : machine.reference.loaded = true := running
  have specified := Reference.fetchPlaintext_run functions name machine.reference
  rw [encoded] at specified
  dsimp only at specified
  rw [if_pos ready, uploads] at specified
  apply Simulates.of_ok fetched specified
  constructor
  case tracks => exact Tracks.moves ⟨fresh, rfl⟩ (PlaintextCache.touchPlaintext_moves pt.gpu)
  case hold =>
    rw [PlaintextCache.touchPlaintext_hold]
    exact holds
  case same => exact same

/-- Each operand takes an unused handle when its turn comes. -/
def LoadsAllFresh (functions : Functions HostCiphertext cc) :
    List Name → Machine HostCiphertext cc → Prop
  | [], _ => True
  | name :: rest, machine =>
      LoadsFresh name machine ∧
        LoadsAllFresh functions rest
          (final (loadPlaintext functions name >>= fun _ => fetchPlaintext name) machine)

/-- All operands are the values of fresh uploads. -/
theorem fetchPlaintexts_simulates (available : devices ≠ []) (names : List Name)
    (held : HeldTracks functions devices machine reference)
    (unused : LoadsAllFresh functions names machine) :
    Simulates (HeldTracks functions devices) (fetchPlaintexts functions names)
      (Reference.fetchPlaintexts functions names) machine reference := by
  induction names generalizing machine reference with
  | nil => exact .returns [] held
  | cons name rest ih =>
      obtain ⟨first, later⟩ := unused
      apply (loadPlaintext_held held first).bind
      intro _ loaded reached called _ kept
      obtain ⟨pt, live, isLoaded⟩ := loadPlaintext_loaded held.hold (held.same ▸ available) called
      apply (fetchPlaintext_simulates kept live isLoaded).bind
      intro value fetched found fetches _ still
      have ends : final (loadPlaintext functions name >>= fun _ => fetchPlaintext name) machine =
          fetched := by
        apply final_of_ok
        rw [EStateM.run_bind, called]
        exact fetches
      apply (ih still (ends ▸ later)).bind
      intro values last follows _ _ ended
      exact .returns _ ended

/-- A single operand stays loaded with its value until the operation ends. -/
theorem fetchPlaintexts_single (available : devices ≠ []) {name : Name}
    (held : HeldTracks functions devices machine reference) (unused : LoadsFresh name machine)
    {operands : List (Plaintext cc)}
    (done : (fetchPlaintexts functions [name]).run machine = .ok operands after) :
    ∃ old pt value, machine.plaintextSide.owners.lookup name = some old ∧
      uploadPlaintext functions old.cpu = .ok value ∧ operands = [value] ∧
      after.plaintextSide.owners.lookup name = some pt ∧ after.deviceValues pt.gpu = some value := by
  obtain ⟨_, loaded, called, fetches⟩ := bind_ok done
  obtain ⟨value, fetched, fetchCalled, rest⟩ := bind_ok fetches
  obtain ⟨reached, specified, kept⟩ := (loadPlaintext_held held unused).follows called
  obtain ⟨pt, live, isLoaded⟩ := loadPlaintext_loaded held.hold (held.same ▸ available) called
  have still : loaded.reference = machine.reference := by
    rw [kept.tracks.2, held.tracks.2]
    exact Reference.loadPlaintext_still functions specified
  have encoded : (machine.plaintextSide.owners.lookup name).map PlaintextImpl.cpu = some pt.cpu := by
    have before := congrFun (congrArg Reference.encodings still) name
    change (loaded.plaintextSide.owners.lookup name).map PlaintextImpl.cpu = _ at before
    rw [live] at before
    exact before.symm
  obtain ⟨old, lived, sameEncoding⟩ := Option.map_eq_some_iff.mp encoded
  obtain ⟨copy, uploads, stored, fetchRun⟩ := fetchPlaintext_run kept.tracks.1 live isLoaded
  rw [fetchRun] at fetchCalled
  cases fetchCalled
  cases rest
  refine ⟨old, pt, value, lived, sameEncoding ▸ uploads, rfl, ?_, stored⟩
  rw [PlaintextCache.touchPlaintext_owners]
  exact live

end Fideslib.Transparency
