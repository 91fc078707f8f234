/-
This file keeps the byte counter and the recency list in step with the resident keys.
-/

import Fideslib.RotationKeys.Eviction

namespace Fideslib.RotationKeys

/-- A key counts its limbs only while it is resident. -/
def residentLimbBytes (key : KeySwitchingKey) : Nat :=
  if key.resident then key.limbBytes.toNat else 0

namespace KeyPrecomputations

/-- The counter holds the resident bytes, and the list holds every evictable resident key. -/
structure Accounted (keys : KeyPrecomputations) : Prop extends keys.LruWf where
  bytes : keys.residentBytes = UInt64.ofNat (KeyedMap.total residentLimbBytes keys.rotKeys)
  savedListed : ∀ index key, keys.rotKeys.lookup index = some key → key.resident →
    key.hasSnapshot → index ∈ keys.recency

variable {keys : KeyPrecomputations}

theorem accounted_empty : ({} : KeyPrecomputations).Accounted where
  toLruWf := lruWf_empty
  bytes := rfl
  savedListed := by simp

/-- A touch only adds an index to the list. -/
theorem Accounted.touch (held : keys.Accounted) {index : Int} {key : KeySwitchingKey}
    (present : keys.rotKeys.lookup index = some key) (resident : key.resident) :
    (keys.touch index).Accounted where
  toLruWf := held.toLruWf.touch present resident
  bytes := by simpa using held.bytes
  savedListed := by
    intro other stored found loaded snapshot
    rw [touch_rotKeys] at found
    rw [touch_recency held.toLruWf, List.mem_cons, List.mem_filter]
    by_cases same : other = index
    · exact Or.inl same
    · exact Or.inr ⟨held.savedListed other stored found loaded snapshot, by simpa using same⟩

/-- An offloaded key gives its bytes back and leaves the list. -/
theorem Accounted.offloadKey (held : keys.Accounted) (index : Int) :
    (keys.offloadKey index).1.Accounted := by
  rcases offloadKey_cases keys index with same | ⟨key, present, resident, snapshot, moved⟩
  · rw [same]
    exact held
  · rw [moved]
    refine ⟨held.toLruWf.offload index _ _, ?_, ?_⟩
    · have split := KeyedMap.total_insert_old residentLimbBytes { key with resident := false } present
      simp only [residentLimbBytes, resident, Bool.false_eq_true, if_false, if_true] at split
      have sum : UInt64.ofNat (KeyedMap.total residentLimbBytes (keys.rotKeys.insert index
          { key with resident := false })) + key.limbBytes = keys.residentBytes := by
        rw [held.bytes, ← @UInt64.ofNat_toNat key.limbBytes, ← UInt64.ofNat_add]
        exact congrArg UInt64.ofNat split
      rw [forgetLru_residentBytes, forgetLru_rotKeys]
      change keys.residentBytes - key.limbBytes = _
      rw [← sum, UInt64.add_sub_cancel]
    · intro other stored found loaded saved
      rw [forgetLru_rotKeys] at found
      have different : other ≠ index := by
        rintro rfl
        rw [AList.lookup_insert] at found
        cases found
        cases loaded
      rw [AList.lookup_insert_ne different] at found
      have listed := held.savedListed other stored found loaded saved
      have shape : ({ keys with
          rotKeys := keys.rotKeys.insert index { key with resident := false }
          residentBytes := keys.residentBytes - key.limbBytes }.forgetLru index).recency =
          (keys.forgetLru index).recency := by
        unfold forgetLru
        dsimp only
        split <;> rfl
      rw [shape, forgetLru_recency held.toLruWf]
      exact List.mem_filter.mpr ⟨listed, by simpa using different⟩

theorem Accounted.evictToFit (held : keys.Accounted) {fuel : Nat} {budget incoming : UInt64}
    {result : KeyPrecomputations} (ran : keys.evictToFit fuel budget incoming = some result) :
    result.Accounted :=
  evictToFit_invariant Accounted (fun _ index stays => stays.offloadKey index) ran held

/-- An offload never changes a key that is not resident. -/
theorem offloadKey_absent {index : Int} {key : KeySwitchingKey} (absent : key.resident = false)
    (other : Int) (present : keys.rotKeys.lookup index = some key) :
    (keys.offloadKey other).1.rotKeys.lookup index = some key := by
  rcases offloadKey_cases keys other with same | ⟨stored, found, resident, _, moved⟩
  · rw [same]
    exact present
  · have different : index ≠ other := by
      rintro rfl
      rw [present] at found
      cases found
      rw [absent] at resident
      cases resident
    rw [moved, forgetLru_rotKeys, AList.lookup_insert_ne different, present]

/-- A loaded key adds its bytes and joins the list. -/
theorem Accounted.load (held : keys.Accounted) {index : Int} {key : KeySwitchingKey}
    (present : keys.rotKeys.lookup index = some key) (absent : key.resident = false) :
    ({ keys with
        rotKeys := keys.rotKeys.insert index { key with resident := true }
        residentBytes := keys.residentBytes + key.limbBytes }.touch index).Accounted := by
  refine ⟨held.toLruWf.load index _ rfl, ?_, ?_⟩
  · have split := KeyedMap.total_insert_old residentLimbBytes { key with resident := true } present
    simp only [residentLimbBytes, absent, Bool.false_eq_true, if_false, if_true,
      Nat.add_zero] at split
    rw [touch_residentBytes, touch_rotKeys, split, UInt64.ofNat_add, UInt64.ofNat_toNat,
      ← held.bytes]
  · intro other stored found loaded saved
    have changed := @LruWf.insert _ held.toLruWf index { key with resident := true }
      (keys.residentBytes + key.limbBytes) rfl
    rw [touch_rotKeys] at found
    rw [touch_recency changed, List.mem_cons, List.mem_filter]
    by_cases same : other = index
    · exact Or.inl same
    · rw [AList.lookup_insert_ne same] at found
      exact Or.inr ⟨held.savedListed other stored found loaded saved, by simpa using same⟩

theorem Accounted.ensureResident (held : keys.Accounted) {fuel : Nat} {index : Int}
    {budget : UInt64} {mayEvict : Bool} {next : KeyPrecomputations}
    {outcome : Except CacheError KeySwitchingKey}
    (ran : keys.ensureResident fuel index budget mayEvict = some (next, outcome)) :
    next.Accounted := by
  rcases ensureResident_cases ran with rfl | ⟨key, present, resident, rfl⟩ |
    ⟨key, fitted, present, absent, source, loads⟩
  · exact held
  · exact held.touch present resident
  · -- The eviction loop runs first and cannot touch the requested key.
    have evicted : fitted.Accounted ∧ fitted.rotKeys.lookup index = some key := by
      rcases source with rfl | ran
      · exact ⟨held, present⟩
      · exact ⟨held.evictToFit ran, evictToFit_invariant
          (fun state => state.rotKeys.lookup index = some key)
          (fun _ other stays => offloadKey_absent absent other stays) ran present⟩
    rcases loads with rfl | ⟨_, rfl⟩
    · exact evicted.1
    · exact evicted.1.load evicted.2 absent

/-- A new key is accounted when it does not hide from the list. -/
theorem Accounted.addKey (held : keys.Accounted) {index : Int} {key : KeySwitchingKey}
    (again : ∀ stored, keys.rotKeys.lookup index = some stored →
      stored.resident = false ∨ stored.limbBytes = 0)
    (fresh : keys.rotKeys.lookup index = none → key.resident → key.hasSnapshot = false) :
    (keys.addKey index key).Accounted := by
  refine ⟨held.toLruWf.addKey index key, ?_, ?_⟩
  · unfold KeyPrecomputations.addKey registerKey
    split
    case h_1 stored present =>
      split
      case isTrue resident =>
        have none : stored.limbBytes = 0 := by
          rcases again stored present with absent | none
          · rw [absent] at resident
            cases resident
          · exact none
        simpa [none] using held.bytes
      case isFalse => exact held.bytes
    case h_2 absent =>
      have split := KeyedMap.total_insert_new residentLimbBytes key absent
      split
      case isTrue resident =>
        rw [residentLimbBytes, if_pos resident] at split
        simp only [split, UInt64.ofNat_add, UInt64.ofNat_toNat, held.bytes]
      case isFalse resident =>
        rw [residentLimbBytes, if_neg resident, Nat.add_zero] at split
        simpa only [split] using held.bytes
  · intro other stored found loaded saved
    have same : (keys.addKey index key).recency = keys.recency := by
      unfold KeyPrecomputations.addKey registerKey
      split <;> split <;> rfl
    rw [same]
    cases present : keys.rotKeys.lookup index with
    | some old =>
        have unchanged : (keys.addKey index key).rotKeys = keys.rotKeys := by
          unfold KeyPrecomputations.addKey registerKey
          rw [present]
          dsimp only
          split <;> rfl
        rw [unchanged] at found
        exact held.savedListed other stored found loaded saved
    | none =>
        have added : (keys.addKey index key).rotKeys = keys.rotKeys.insert index key := by
          unfold KeyPrecomputations.addKey registerKey
          rw [present]
          dsimp only
          split <;> rfl
        rw [added] at found
        rcases KeyedMap.lookup_insert_cases found with ⟨rfl, rfl⟩ | ⟨-, old⟩
        · rw [fresh present loaded] at saved
          cases saved
        · exact held.savedListed other stored old loaded saved

theorem Accounted.offloadKeys (held : keys.Accounted) (indexes : List Int) :
    (keys.offloadKeys indexes).Accounted :=
  offloadKeys_invariant Accounted (fun _ index stays => stays.offloadKey index) indexes held

theorem Accounted.pinKey (held : keys.Accounted) (index : Int) (pin : Bool) :
    (keys.pinKey index pin).Accounted := by
  refine ⟨held.toLruWf.pinKey index pin, ?_, ?_⟩
  · unfold KeyPrecomputations.pinKey
    split
    · exact held.bytes
    · split <;> exact held.bytes
  · unfold KeyPrecomputations.pinKey
    split
    · exact held.savedListed
    · split <;> exact held.savedListed

theorem Accounted.clear (keys : KeyPrecomputations) : keys.clear.Accounted where
  toLruWf := .clear keys
  bytes := rfl
  savedListed := by simp [KeyPrecomputations.clear, resetCacheBookkeeping]

end KeyPrecomputations

/-- An addition names no resident key of its set and no resident key with a snapshot. -/
def AddsFresh (call : Call) (context : ContextData) : Prop :=
  match call with
  | .addRotationKey index key =>
      (∀ stored, (context.keySet key.keyID).rotKeys.lookup (context.liftIndex index) = some stored →
        stored.resident = false ∨ stored.limbBytes = 0) ∧
      ((context.keySet key.keyID).rotKeys.lookup (context.liftIndex index) = none →
        key.resident → key.hasSnapshot = false)
  | _ => True

/-- Every guarded step keeps the accounting. -/
theorem KeySetStep.accounted {context : ContextData} {keyID : KeyHash}
    {next : KeyPrecomputations} {call : Call}
    (moved : KeySetStep context keyID (context.keySet keyID) call next)
    (meets : AddsFresh call context) (held : (context.keySet keyID).Accounted) :
    next.Accounted := by
  cases moved with
  | same => exact held
  | add index key tag =>
      subst tag
      exact held.addKey meets.1 meets.2
  | ensure _ ran => exact held.ensureResident ran
  | offload _ indexes => exact held.offloadKeys indexes
  | pin _ index pin => exact held.pinKey index pin
  | enforce _ ran => exact held.evictToFit ran
  | clear => exact .clear _

/-- Every run that adds only fresh keys keeps the accounting of every key set. -/
theorem run_accounted {logN : Nat} {context : ContextData}
    (run : StateMachine.Run Call.Step AddsFresh { logN := logN } context) :
    ∀ keyID keys, context.keys.lookup keyID = some keys → keys.Accounted := by
  have all : ∀ keyID, (context.keySet keyID).Accounted := by
    intro keyID
    refine run.invariant (fun current => (current.keySet keyID).Accounted)
      KeyPrecomputations.accounted_empty ?_
    intro call before after meets moved held
    exact (call.step_keySet moved keyID).accounted meets held
  intro keyID keys present
  exact ContextData.keySet_of_lookup present ▸ all keyID

/-- A smaller budget evicts the loaded key that is not pinned. -/
def trimmedContext : ContextData := (pinnedContext.setRotationKeyCache 2 8).getD pinnedContext

/-- Three additions, two fetches, a pin and an eviction meet the guard. -/
theorem run_accounted_trimmedContext : (trimmedContext.keySet "key").Accounted := by
  have run : StateMachine.Run Call.Step AddsFresh { logN := 3 } pinnedContext := by
    refine pinnedContext_run ?_ (fun _ _ => trivial) (fun _ _ => trivial) (fun _ _ => trivial)
    intro index context absent
    refine ⟨fun stored present => ?_, fun _ resident => ?_⟩
    · cases absent.symm.trans present
    · cases resident
  have trimmed : Call.Step (.setRotationKeyCache 8) pinnedContext trimmedContext := ⟨2, rfl⟩
  exact run_accounted (run.next (by trivial) trimmed) "key" _ rfl

/-- This context has received the same key twice. -/
def twiceContext : ContextData := eagerContext.addRotationKey 1 eagerKey

/-- A repeated addition counts the stored key twice. -/
theorem repeated_addition_miscounts :
    ¬∀ context, Reachable context → ∀ keyID keys, context.keys.lookup keyID = some keys →
      keys.Accounted := by
  intro all
  have first : Call.Step (.addRotationKey 1 eagerKey) { logN := 2 } eagerContext := ⟨0, rfl⟩
  have second : Call.Step (.addRotationKey 1 eagerKey) eagerContext twiceContext := ⟨0, rfl⟩
  have reached : Reachable twiceContext :=
    ⟨2, (StateMachine.Run.start.next trivial first).next trivial second⟩
  have counted := (all twiceContext reached "key" (twiceContext.keySet "key") rfl).bytes
  have stored : (twiceContext.keySet "key").residentBytes = 16 := rfl
  have sum : KeyedMap.total residentLimbBytes (twiceContext.keySet "key").rotKeys = 8 := rfl
  rw [stored, sum] at counted
  exact absurd counted (by decide)

end Fideslib.RotationKeys
