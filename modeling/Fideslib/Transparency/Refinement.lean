/-
This file proves that the calls with the plaintext cache compute what fresh uploads compute.
-/

import Fideslib.Transparency.CacheMoves
import Fideslib.Transparency.Reference

namespace Fideslib.Transparency

open Fideslib.CKKS Fideslib.Residency ThrowingCalls

variable {F : Type} {HostCiphertext : Type} {cc : ContextData F}
  (functions : Functions HostCiphertext cc)
  {machine : Machine HostCiphertext cc} {reference : Reference HostCiphertext cc}

/-- Every device copy is a fresh upload of its host encoding. -/
structure Fresh (machine : Machine HostCiphertext cc) : Prop where
  consistent : machine.plaintextSide.Consistent machine.nextName
  copies : ∀ name pt, machine.plaintextSide.owners.lookup name = some pt → pt.loaded = true →
    ∃ value, uploadPlaintext functions pt.cpu = .ok value ∧
      machine.deviceValues pt.gpu = some value
  running : ∀ name pt, machine.plaintextSide.owners.lookup name = some pt → pt.loaded = true →
    machine.loaded = true ∧ machine.devices ≠ []

/-- The reference follows a machine whose device copies are fresh. -/
def Tracks (machine : Machine HostCiphertext cc) (reference : Reference HostCiphertext cc) : Prop :=
  Fresh functions machine ∧ machine.reference = reference

/-- Inside an operation the cache is held and the devices stay. -/
structure HeldTracks (devices : List Nat) (machine : Machine HostCiphertext cc)
    (reference : Reference HostCiphertext cc) : Prop where
  tracks : Tracks functions machine reference
  hold : 0 < machine.plaintextSide.plaintextCacheHold
  same : machine.devices = devices

theorem initial_tracks (devices : List Nat) :
    Tracks functions (Machine.initial devices : Machine HostCiphertext cc)
      (Machine.initial devices : Machine HostCiphertext cc).reference := by
  refine ⟨⟨PlaintextCache.initial_consistent, ?_, ?_⟩, rfl⟩
  · intro name pt live
    cases live
  · intro name pt live
    cases live

variable {functions}

/-- A move of the cache is not seen by the reference. -/
theorem Tracks.moves (tracks : Tracks functions machine reference)
    {side : PlaintextCache (Encoding F)}
    (moves : PlaintextCache.Moves machine.nextName machine.plaintextSide side) :
    Tracks functions { machine with plaintextSide := side } reference := by
  obtain ⟨fresh, rfl⟩ := tracks
  constructor
  · constructor
    case consistent => exact moves.consistent fresh.consistent
    case copies =>
      intro name pt live loaded
      exact fresh.copies name pt (moves.loaded live loaded) loaded
    case running =>
      intro name pt live loaded
      exact fresh.running name pt (moves.loaded live loaded) loaded
  · have same : (fun name => (side.owners.lookup name).map PlaintextImpl.cpu) =
        fun name => (machine.plaintextSide.owners.lookup name).map PlaintextImpl.cpu := by
      funext name
      exact moves.encoding name
    simp only [Machine.reference, same]

theorem onPlaintexts_hidden (tracks : Tracks functions machine reference)
    {change : PlaintextCache (Encoding F) → PlaintextCache (Encoding F)}
    (moves : PlaintextCache.Moves machine.nextName machine.plaintextSide
      (change machine.plaintextSide)) :
    Simulates (Tracks functions) (onPlaintexts change) (pure ()) machine reference :=
  Simulates.hides (tracks.moves moves)

/-- A guard around a call is not seen by the reference. -/
theorem held_simulates {Value : Type} {body : Api HostCiphertext cc Value}
    {spec : Reference.Spec HostCiphertext cc Value} (tracks : Tracks functions machine reference)
    (inner : HeldTracks functions machine.devices
        { machine with plaintextSide := machine.plaintextSide.openHold } reference →
      Simulates (HeldTracks functions machine.devices) body spec
        { machine with plaintextSide := machine.plaintextSide.openHold } reference) :
    Simulates (Tracks functions)
      (withScope (fun machine => { machine with plaintextSide := machine.plaintextSide.openHold })
        (fun machine => { machine with plaintextSide := machine.plaintextSide.closeHold }) body)
      spec machine reference := by
  apply @Simulates.scope _ _ _ _ _ _ _ (HeldTracks functions machine.devices)
  · intro after reached held
    exact held.tracks.moves PlaintextCache.closeHold_moves
  · exact inner ⟨tracks.moves PlaintextCache.openHold_moves, Nat.succ_pos _, rfl⟩

/-- A registered upload takes an unused handle. -/
def LoadsFresh (name : Name) (machine : Machine HostCiphertext cc) : Prop :=
  ∀ pt, machine.plaintextSide.owners.lookup name = some pt → pt.loaded = false →
    machine.loaded = true → machine.devices ≠ [] →
    machine.plaintextSide.devicePlaintexts.lookup machine.nextGpuHandle = none

section Register

variable {name : Name} {pt : PlaintextImpl (Encoding F)}

/-- This is the cache with a new device plaintext, before the budget is enforced. -/
def registered (machine : Machine HostCiphertext cc) (name : Name) (pt : PlaintextImpl (Encoding F))
    (bytes : Nat) : PlaintextCache (Encoding F) :=
  ((machine.plaintextSide.registerDevicePlaintext machine.nextGpuHandle bytes).setOwner name
    { pt with gpu := machine.nextGpuHandle, loaded := true }).trackPlaintext machine.nextGpuHandle
    name bytes

theorem registered_owner (bytes : Nat) (other : Name) :
    (registered machine name pt bytes).owners.lookup other =
      if other = name then some { pt with gpu := machine.nextGpuHandle, loaded := true }
      else machine.plaintextSide.owners.lookup other :=
  KeyedMap.lookup_insert_eq name other _ _

theorem registered_registry (bytes : Nat)
    (unused : machine.plaintextSide.devicePlaintexts.lookup machine.nextGpuHandle = none)
    (handle : Handle) :
    (registered machine name pt bytes).devicePlaintexts.lookup handle =
      if handle = machine.nextGpuHandle then some bytes
      else machine.plaintextSide.devicePlaintexts.lookup handle := by
  change (KeyedMap.emplace _ _ _).lookup handle = _
  rw [KeyedMap.emplace_new unused]
  exact KeyedMap.lookup_insert_eq _ handle bytes _

theorem registered_entry (fresh : Fresh functions machine) (bytes : Nat)
    (unused : machine.plaintextSide.devicePlaintexts.lookup machine.nextGpuHandle = none)
    (handle : Handle) :
    (registered machine name pt bytes).plaintextCache.lookup handle =
      if handle = machine.nextGpuHandle then some ⟨name, bytes⟩
      else machine.plaintextSide.plaintextCache.lookup handle := by
  have untracked : machine.plaintextSide.plaintextCache.lookup machine.nextGpuHandle = none := by
    rw [← Option.not_isSome_iff_eq_none]
    intro known
    have found := fresh.consistent.tracked _ known
    rw [unused] at found
    cases found
  change (KeyedMap.emplace _ _ machine.plaintextSide.plaintextCache).lookup handle = _
  rw [KeyedMap.emplace_new untracked]
  exact KeyedMap.lookup_insert_eq _ handle _ _

/-- No loaded owner has the unused handle. -/
theorem Fresh.apart (fresh : Fresh functions machine)
    (unused : machine.plaintextSide.devicePlaintexts.lookup machine.nextGpuHandle = none)
    {other : Name} {owner : PlaintextImpl (Encoding F)}
    (live : machine.plaintextSide.owners.lookup other = some owner) (loaded : owner.loaded = true) :
    owner.gpu ≠ machine.nextGpuHandle := by
  intro same
  have known := fresh.consistent.registered other owner live loaded
  rw [same, unused] at known
  cases known

theorem registered_consistent (fresh : Fresh functions machine) (bytes : Nat)
    (live : machine.plaintextSide.owners.lookup name = some pt)
    (unused : machine.plaintextSide.devicePlaintexts.lookup machine.nextGpuHandle = none) :
    (registered machine name pt bytes).Consistent machine.nextName := by
  have within := fresh.consistent.named name (by rw [live]; rfl)
  constructor
  case registered =>
    intro other owner known loaded
    rw [registered_registry bytes unused]
    split
    case isTrue => rfl
    case isFalse different =>
      rw [registered_owner] at known
      split at known
      case isTrue =>
        cases known
        exact absurd rfl different
      case isFalse => exact fresh.consistent.registered other owner known loaded
  case alone =>
    intro first second one two known other loaded too same
    rw [registered_owner] at known other
    split at known
    case isTrue named =>
      split at other
      case isTrue same => rw [named, same]
      case isFalse =>
        cases known
        exact absurd same.symm (fresh.apart unused other too)
    case isFalse =>
      split at other
      case isTrue =>
        cases other
        exact absurd same (fresh.apart unused known loaded)
      case isFalse => exact fresh.consistent.alone first second one two known other loaded too same
  case owned =>
    intro handle entry stored other owner known loaded same
    rw [registered_entry fresh bytes unused] at stored
    rw [registered_owner] at known
    split at stored
    case isTrue handleSame =>
      cases stored
      split at known
      case isTrue named => exact named.symm
      case isFalse => exact absurd (same.trans handleSame) (fresh.apart unused known loaded)
    case isFalse different =>
      split at known
      case isTrue =>
        cases known
        exact absurd same.symm different
      case isFalse => exact fresh.consistent.owned handle entry stored other owner known loaded same
  case tracked =>
    intro handle known
    rw [registered_entry fresh bytes unused] at known
    rw [registered_registry bytes unused]
    split
    case isTrue => rfl
    case isFalse different =>
      rw [if_neg different] at known
      exact fresh.consistent.tracked handle known
  case named =>
    intro other known
    rw [registered_owner] at known
    split at known
    case isTrue same => exact same ▸ within
    case isFalse => exact fresh.consistent.named other known
  case ownerNamed =>
    intro handle entry stored
    rw [registered_entry fresh bytes unused] at stored
    split at stored
    case isTrue =>
      cases stored
      exact within
    case isFalse => exact fresh.consistent.ownerNamed handle entry stored

/-- An upload under an unused handle keeps every device copy fresh. -/
theorem Tracks.register (tracks : Tracks functions machine reference) {value : Plaintext cc}
    (live : machine.plaintextSide.owners.lookup name = some pt)
    (unused : machine.plaintextSide.devicePlaintexts.lookup machine.nextGpuHandle = none)
    (uploads : uploadPlaintext functions pt.cpu = .ok value) (running : machine.loaded = true)
    (devices : machine.devices ≠ []) (bytes : Nat) :
    Tracks functions (machine.registerDevicePlaintext name pt value bytes) reference := by
  obtain ⟨fresh, rfl⟩ := tracks
  have before : Tracks functions { machine with
      nextGpuHandle := machine.nextGpuHandle + 1
      deviceValues := Function.update machine.deviceValues machine.nextGpuHandle (some value)
      plaintextSide := registered machine name pt bytes } machine.reference := by
    constructor
    · constructor
      case consistent => exact registered_consistent fresh bytes live unused
      case copies =>
        intro other owner known loaded
        change (registered machine name pt bytes).owners.lookup other = _ at known
        rw [registered_owner] at known
        split at known
        case isTrue =>
          cases known
          exact ⟨value, uploads, Function.update_self ..⟩
        case isFalse =>
          obtain ⟨copy, uploaded, stored⟩ := fresh.copies other owner known loaded
          refine ⟨copy, uploaded, ?_⟩
          change Function.update machine.deviceValues _ _ _ = _
          rw [Function.update_of_ne (fresh.apart unused known loaded), stored]
      case running => exact fun _ _ _ _ => ⟨running, devices⟩
    · have same : (fun other => ((registered machine name pt bytes).owners.lookup other).map
          PlaintextImpl.cpu) =
          fun other => (machine.plaintextSide.owners.lookup other).map PlaintextImpl.cpu := by
        funext other
        rw [registered_owner]
        split
        case isTrue named => rw [named, live]; rfl
        case isFalse => rfl
      simp only [Machine.reference, same]
  have moved := before.moves (PlaintextCache.enforcePlaintextBudget_moves machine.nextGpuHandle)
  unfold Machine.registerDevicePlaintext
  dsimp only
  rw [if_neg (by rw [unused]; exact Bool.false_ne_true)]
  exact moved

end Register

end Fideslib.Transparency
