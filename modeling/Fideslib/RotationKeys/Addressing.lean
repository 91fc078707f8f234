/-
This file settles which stored key a rotation index addresses in each call of the cache.
-/

import Fideslib.RotationKeys.Accounting
import Mathlib.Data.Int.ModEq

namespace Fideslib.RotationKeys
namespace ContextData

/-- The call for a slot count chooses the stored index before it loads the key. -/
def selectIndex (context : ContextData) (keys : KeyPrecomputations) (index slots : Int) :
    Except CacheError Int :=
  let half : Int := (context.N / 2 : Nat)
  if index = 2 * (context.N : Int) - 1 then .ok index
  else
    let reduced := index.tmod half
    let lifted := if reduced < 0 then reduced + half else reduced
    let actual := match keys.rotKeys.lookup lifted with
      | some _ => lifted
      | none => context.alternativeIndex keys lifted slots
    match keys.rotKeys.lookup actual with
    | none => .error (.runtimeError s!"Rotation index{actual} not found")
    | some _ => .ok actual

/-- A call fetches the index it selects or reports why it selects none. -/
theorem getRotationKeyForSlots_eq (context : ContextData) {keyID : KeyHash}
    {keys : KeyPrecomputations} (present : context.keys.lookup keyID = some keys) (fuel : Nat)
    (index slots : Int) :
    context.getRotationKeyForSlots fuel index keyID slots =
      match context.selectIndex keys index slots with
      | .error failure => some (context, .error failure)
      | .ok actual => (context.fetchRotationKey fuel keyID keys actual).map fun result =>
          (result.1, result.2.map fun key => (key, actual)) := by
  unfold getRotationKeyForSlots selectIndex
  rw [present]
  dsimp only
  split
  case isTrue => rfl
  case isFalse =>
    generalize chosen : keys.rotKeys.lookup _ = found
    cases found with
    | none => rfl
    | some key => rfl

/-- A rotation step is reduced to the indexes below half the ring dimension. -/
theorem reduced_eq_emod (index : Int) {half : Int} (positive : 0 < half) :
    (if index.tmod half < 0 then index.tmod half + half else index.tmod half) = index % half := by
  have whole := Int.tmod_eq_emod (a := index) (b := half)
  have below := Int.emod_lt_of_pos index positive
  have above := Int.emod_nonneg index positive.ne'
  split at whole <;> split <;> omega

/-- The rounds of the loop move an index by multiples of half the ring dimension up to the first
value that is not negative. -/
theorem raiseIndex_spec {half : Int} (positive : 0 < half) (fuel : Nat) (index : Int)
    (enough : -index ≤ fuel) :
    0 ≤ raiseIndex half fuel index ∧ raiseIndex half fuel index ≡ index [ZMOD half] ∧
      (index < half → raiseIndex half fuel index < half) ∧
      (0 ≤ index → raiseIndex half fuel index = index) := by
  induction fuel generalizing index with
  | zero =>
      rw [raiseIndex]
      exact ⟨by omega, .refl _, id, fun _ => rfl⟩
  | succ fuel inductionHypothesis =>
      rw [raiseIndex]
      split
      case isTrue negative =>
        obtain ⟨above, same, below, -⟩ := inductionHypothesis (index + half) (by omega)
        have shifted : index + half ≡ index [ZMOD half] := by
          rw [Int.ModEq, Int.add_emod_right]
        exact ⟨above, same.trans shifted, fun _ => below (by omega), by omega⟩
      case isFalse raised => exact ⟨by omega, .refl _, id, fun _ => rfl⟩

theorem half_pos {context : ContextData} (ring : 0 < context.logN) :
    0 < ((context.N / 2 : Nat) : Int) := by
  have two : 2 ^ 1 ≤ 2 ^ context.logN := Nat.pow_le_pow_right Nat.two_pos ring
  have whole : 2 ≤ context.N := two
  omega

theorem liftIndex_spec {context : ContextData} (ring : 0 < context.logN) (index : Int) :
    0 ≤ context.liftIndex index ∧
      context.liftIndex index ≡ index [ZMOD (context.N / 2 : Nat)] ∧
      (index < (context.N / 2 : Nat) → context.liftIndex index < (context.N / 2 : Nat)) ∧
      (0 ≤ index → context.liftIndex index = index) :=
  raiseIndex_spec (half_pos ring) _ index (Int.self_le_toNat _)

/-- A stored index below half the ring dimension is selected for every congruent step. -/
theorem selectIndex_stored {context : ContextData} (ring : 0 < context.logN)
    {keys : KeyPrecomputations} {index : Int} {key : KeySwitchingKey} (slots : Int)
    (step : index ≠ 2 * (context.N : Int) - 1)
    (stored : keys.rotKeys.lookup (index % (context.N / 2 : Nat)) = some key) :
    context.selectIndex keys index slots = .ok (index % (context.N / 2 : Nat)) := by
  unfold selectIndex
  dsimp only
  rw [if_neg step, reduced_eq_emod index (half_pos ring)]
  have chosen : (match keys.rotKeys.lookup (index % (context.N / 2 : Nat)) with
      | some _ => index % (context.N / 2 : Nat)
      | none => context.alternativeIndex keys (index % (context.N / 2 : Nat)) slots) =
      index % (context.N / 2 : Nat) := by
    rw [stored]
  rw [chosen, stored]

/-- Without a slot count only the reduced step is selected. -/
theorem selectIndex_dense {context : ContextData} (ring : 0 < context.logN)
    {keys : KeyPrecomputations} {index actual : Int} (step : index ≠ 2 * (context.N : Int) - 1)
    (selected : context.selectIndex keys index (-1) = .ok actual) :
    actual = index % (context.N / 2 : Nat) := by
  unfold selectIndex at selected
  dsimp only at selected
  rw [if_neg step, reduced_eq_emod index (half_pos ring)] at selected
  have same : context.alternativeIndex keys (index % (context.N / 2 : Nat)) (-1) =
      index % (context.N / 2 : Nat) := by
    unfold alternativeIndex
    dsimp only
    rw [if_neg fun sparse => sparse.1 rfl]
  rw [same] at selected
  split at selected
  case h_1 => cases selected
  case h_2 found _ =>
    cases selected
    split <;> rfl

/-- The conjugation index is selected as it is. -/
theorem selectIndex_conjugation (context : ContextData) (keys : KeyPrecomputations) (slots : Int) :
    context.selectIndex keys (2 * (context.N : Int) - 1) slots =
      .ok (2 * (context.N : Int) - 1) := by
  unfold selectIndex
  rw [if_pos rfl]

end ContextData

namespace KeyPrecomputations

/-- A loop over distinct indexes acts once on the index it looks for. -/
theorem foldl_single {State : Type} (act : State → Int → State) (index : Int) (indexes : List Int)
    (distinct : indexes.Nodup) (state : State) :
    indexes.foldl (fun current other =>
        if !List.isEmpty [index] && !List.contains [index] other then current else act current other) state =
      if index ∈ indexes then act state index else state := by
  induction indexes generalizing state with
  | nil => rfl
  | cons first rest inductionHypothesis =>
      obtain ⟨fresh, distinctRest⟩ := List.nodup_cons.mp distinct
      rw [List.foldl_cons, inductionHypothesis distinctRest]
      by_cases same : first = index
      · subst same
        simp [fresh]
      · have differs : index ≠ first := fun reversed => same reversed.symm
        simp [same, differs]

/-- A list of one index offloads the key stored there. -/
theorem offloadKeys_single (keys : KeyPrecomputations) (index : Int) :
    keys.offloadKeys [index] = (keys.offloadKey index).1 := by
  have loop := foldl_single (fun current other => (offloadKey current other).1) index _
    keys.rotKeys.keys_nodup keys
  rw [offloadKeys]
  refine loop.trans ?_
  split
  case isTrue => rfl
  case isFalse missing =>
    have absent : keys.rotKeys.lookup index = none := AList.lookup_eq_none.mpr missing
    rw [offloadKey, absent]

end KeyPrecomputations

namespace ContextData

/-- Every call given an index addresses the key that is stored at a slot of one key set. -/
structure AddressesKey (context : ContextData) (keyID : KeyHash) (slot : Int)
    (stored : KeySwitchingKey) (index : Int) : Prop where
  has : (context.hasRotationKey index keyID).2 = true
  select : ∀ slots, context.selectIndex (context.keySet keyID) index slots = .ok slot
  get : ∀ fuel slots, context.getRotationKeyForSlots fuel index keyID slots =
    (context.fetchRotationKey fuel keyID (context.keySet keyID) slot).map fun result =>
      (result.1, result.2.map fun key => (key, slot))
  getExact : ∀ fuel, context.getRotationKey fuel index keyID =
    context.fetchRotationKey fuel keyID (context.keySet keyID) slot
  returns : ∀ fuel reached found,
    context.fetchRotationKey fuel keyID (context.keySet keyID) slot = some (reached, .ok found) →
      found = { stored with resident := true }
  pin : ∀ pin tag, selects tag keyID →
    ((context.pinRotationKey index pin tag).keySet keyID).pinned =
      if pin then insert slot (context.keySet keyID).pinned
      else (context.keySet keyID).pinned.erase slot
  offload : ∀ tag, selects tag keyID →
    (context.offloadRotationKeys [index] tag).keySet keyID =
      ((context.keySet keyID).offloadKey slot).1
  resident : context.isRotationKeyResident index keyID = stored.resident
  residentAny : context.isRotationKeyResident index "" = context.isRotationKeyResident slot ""

/-- A change of the selected key sets changes a stored set that it selects. -/
theorem keySet_selected {context : ContextData} {keyID tag : KeyHash} {keys : KeyPrecomputations}
    (present : context.keys.lookup keyID = some keys) (selected : selects tag keyID)
    (change : KeyPrecomputations → KeyPrecomputations) :
    ({ context with keys := KeyedMap.mapValues (fun stored keys =>
        if selects tag stored then change keys else keys) context.keys } : ContextData).keySet keyID =
      change keys := by
  rw [keySet, KeyedMap.lookup_mapValues, present]
  exact if_pos selected

/-- A pin marks an index that is stored, and no other index. -/
theorem pinKey_pinned (keys : KeyPrecomputations) (index : Int) (pin : Bool) :
    (keys.pinKey index pin).pinned =
      if (keys.rotKeys.lookup index).isSome then
        if pin then insert index keys.pinned else keys.pinned.erase index
      else keys.pinned := by
  unfold KeyPrecomputations.pinKey
  split
  case h_1 absent => rw [absent]; rfl
  case h_2 found =>
    rw [found]
    cases pin <;> rfl

/-- The tag of a key set answers for that set. -/
theorem isRotationKeyResident_own {context : ContextData} {keyID : KeyHash} {index : Int}
    {keys : KeyPrecomputations} {stored : KeySwitchingKey}
    (present : context.keys.lookup keyID = some keys)
    (found : keys.rotKeys.lookup index = some stored) :
    context.isRotationKeyResident index keyID = stored.resident := by
  have own : selects keyID keyID = true := by simp [selects]
  unfold isRotationKeyResident
  dsimp only
  rw [(List.min?_eq_some_iff).mpr, Option.bind_some, if_pos own, present, Option.bind_some, found]
  · rfl
  · constructor
    · rw [List.mem_filter, if_pos own, present, Option.bind_some, found]
      exact ⟨AList.mem_keys.mpr (AList.lookup_isSome.mp (by rw [present]; rfl)), rfl⟩
    · intro other listed
      have answers := (List.mem_filter.mp listed).2
      split at answers
      case isTrue selected =>
        rcases Bool.or_eq_true_iff.mp selected with blank | same
        · have empty : keyID = "" := String.isEmpty_iff.mp blank
          rw [empty, String.le_iff_toList_le]
          exact not_lt.mp (List.not_lt_nil _)
        · exact (beq_iff_eq.mp same).le
      case isFalse => cases answers

/-- A fetch of a stored key returns the key and marks it resident. -/
theorem fetchRotationKey_returns {context reached : ContextData} {keyID : KeyHash}
    {keys : KeyPrecomputations} {slot : Int} {stored found : KeySwitchingKey} {fuel : Nat}
    (known : keys.rotKeys.lookup slot = some stored)
    (ran : context.fetchRotationKey fuel keyID keys slot = some (reached, .ok found)) :
    found = { stored with resident := true } := by
  obtain ⟨⟨next, outcome⟩, ensured, shape⟩ := Option.map_eq_some_iff.mp ran
  have loads : outcome = .ok found := congrArg Prod.snd shape
  unfold KeyPrecomputations.ensureResident at ensured
  rw [known] at ensured
  dsimp only at ensured
  split at ensured
  case isTrue resident =>
    have same := (congrArg Prod.snd (Option.some.inj ensured)).trans loads
    rw [← Except.ok.inj same, ← resident]
  case isFalse =>
    obtain ⟨fitted, -, fetched⟩ := Option.map_eq_some_iff.mp ensured
    split at fetched
    case h_1 =>
      have failed := (congrArg Prod.snd fetched).trans loads
      cases failed
    case h_2 loaded success =>
      have same := (congrArg Prod.snd fetched).trans loads
      rw [← Except.ok.inj same]
      exact KeyPrecomputations.ensureResident_key success

/-- The calls agree exactly on the stored indexes below half the ring dimension. -/
theorem addressesKey_iff {context : ContextData} (ring : 0 < context.logN) {keyID : KeyHash}
    {keys : KeyPrecomputations} {slot index : Int} {stored : KeySwitchingKey}
    (present : context.keys.lookup keyID = some keys)
    (known : keys.rotKeys.lookup slot = some stored)
    (step : index ≠ 2 * (context.N : Int) - 1) :
    context.AddressesKey keyID slot stored index ↔
      index = slot ∧ 0 ≤ slot ∧ slot < (context.N / 2 : Nat) := by
  have own : context.keySet keyID = keys := keySet_of_lookup present
  constructor
  · intro addresses
    have same : index = slot := by
      by_contra differs
      have itself : selects keyID keyID = true := by simp [selects]
      have pinned := addresses.pin true keyID itself
      have unpinned := addresses.pin false keyID itself
      rw [pinRotationKey, keySet_selected present itself (fun keys => keys.pinKey index true),
        pinKey_pinned, if_pos rfl, if_pos rfl, own] at pinned
      rw [pinRotationKey, keySet_selected present itself (fun keys => keys.pinKey index false),
        pinKey_pinned, if_neg Bool.false_ne_true, if_neg Bool.false_ne_true, own] at unpinned
      have marked : slot ∈ keys.pinned := by
        have here : slot ∈ insert slot keys.pinned := Finset.mem_insert_self _ _
        rw [← pinned] at here
        split at here
        · exact Finset.mem_of_mem_insert_of_ne here fun reversed => differs reversed.symm
        · exact here
      have kept : slot ∈ keys.pinned.erase slot := by
        rw [← unpinned]
        split
        · exact Finset.mem_erase.mpr ⟨fun reversed => differs reversed.symm, marked⟩
        · exact marked
      exact Finset.notMem_erase _ _ kept
    have reduced := selectIndex_dense ring step (addresses.select (-1))
    rw [reduced]
    refine ⟨?_, Int.emod_nonneg _ (half_pos ring).ne', Int.emod_lt_of_pos _ (half_pos ring)⟩
    rw [← reduced, same]
  · rintro ⟨rfl, positive, below⟩
    have whole : index % (context.N / 2 : Nat) = index := Int.emod_eq_of_lt positive below
    have selected (slots : Int) : context.selectIndex keys index slots = .ok index := by
      have chosen := selectIndex_stored ring slots step (by rw [whole]; exact known)
      rw [chosen, whole]
    constructor
    case has =>
      have lifted := (liftIndex_spec ring index).2.2.2 positive
      rw [hasRotationKey, openKeySet_lookup, own, lifted]
      dsimp only
      rw [known]
      rfl
    case select =>
      rw [own]
      exact selected
    case get =>
      intro fuel slots
      rw [getRotationKeyForSlots_eq context present, selected, own]
    case getExact =>
      intro fuel
      rw [getRotationKey, present, own]
      dsimp only
      rw [known]
    case returns =>
      rw [own]
      exact fun fuel reached found => fetchRotationKey_returns known
    case pin =>
      intro pin tag selects
      rw [pinRotationKey, keySet_selected present selects (fun keys => keys.pinKey index pin),
        pinKey_pinned, known, own]
      rfl
    case offload =>
      intro tag selects
      rw [offloadRotationKeys, keySet_selected present selects (fun keys =>
        keys.offloadKeys [index]), KeyPrecomputations.offloadKeys_single, own]
    case resident => exact isRotationKeyResident_own present known
    case residentAny => rfl

/-- An addition stores one key and counts its bytes, and a congruent addition changes neither. -/
structure RegistersOnce (context : ContextData) (key : KeySwitchingKey) (index other : Int) :
    Prop where
  first : (context.keySet key.keyID).rotKeys.lookup (context.liftIndex index) = none →
    ((context.addRotationKey index key).keySet key.keyID).rotKeys =
        (context.keySet key.keyID).rotKeys.insert (context.liftIndex index) key ∧
      ((context.addRotationKey index key).keySet key.keyID).residentBytes =
        (context.keySet key.keyID).residentBytes + if key.resident then key.limbBytes else 0
  again : ∀ repeated : KeySwitchingKey, repeated.keyID = key.keyID →
    (((context.addRotationKey index key).addRotationKey other repeated).keySet key.keyID).rotKeys =
        ((context.addRotationKey index key).keySet key.keyID).rotKeys ∧
      (((context.addRotationKey index key).addRotationKey other repeated).keySet
          key.keyID).residentBytes =
        ((context.addRotationKey index key).keySet key.keyID).residentBytes

/-- The conjugation key has an index that no rotation step is stored at. -/
structure KeepsConjugation (context : ContextData) (key : KeySwitchingKey) (index : Int) :
    Prop where
  apart : context.liftIndex index ≠ 2 * (context.N : Int) - 1
  stored : ∀ conjugation : KeySwitchingKey, conjugation.keyID = key.keyID →
    (((context.addRotationKey index key).addRotationKey (2 * (context.N : Int) - 1)
        conjugation).keySet key.keyID).rotKeys.lookup (context.liftIndex index) =
      ((context.addRotationKey index key).keySet key.keyID).rotKeys.lookup (context.liftIndex index)
  select : ∀ slots, (context.addRotationKey index key).selectIndex
    ((context.addRotationKey index key).keySet key.keyID) (2 * (context.N : Int) - 1) slots =
      .ok (2 * (context.N : Int) - 1)

/-- This key answers for an index after an addition. -/
def registeredKey (context : ContextData) (index : Int) (key : KeySwitchingKey) : KeySwitchingKey :=
  ((context.keySet key.keyID).rotKeys.lookup (context.liftIndex index)).getD key

/-- After an addition every call given a congruent index addresses the key, a second addition
changes nothing, and the conjugation key stays apart. -/
structure IndexContract (context : ContextData) (key : KeySwitchingKey) (index other : Int) :
    Prop where
  addresses : (context.addRotationKey index key).AddressesKey key.keyID (context.liftIndex index)
    (context.registeredKey index key) other
  once : context.RegistersOnce key index other
  conjugation : context.KeepsConjugation key index

@[simp] theorem addRotationKey_logN (context : ContextData) (index : Int) (key : KeySwitchingKey) :
    (context.addRotationKey index key).logN = context.logN := by
  rw [addRotationKey_eq, openKeySet]
  split <;> rfl

@[simp] theorem addRotationKey_N (context : ContextData) (index : Int) (key : KeySwitchingKey) :
    (context.addRotationKey index key).N = context.N := by
  rw [N, addRotationKey_logN, ← N]

@[simp] theorem addRotationKey_liftIndex (context : ContextData) (index other : Int)
    (key : KeySwitchingKey) :
    (context.addRotationKey index key).liftIndex other = context.liftIndex other := by
  rw [liftIndex, addRotationKey_N, ← liftIndex]

/-- The key set of an added key is stored. -/
theorem addRotationKey_lookup (context : ContextData) (index : Int) (key : KeySwitchingKey) :
    (context.addRotationKey index key).keys.lookup key.keyID =
      some ((context.keySet key.keyID).addKey (context.liftIndex index) key) := by
  rw [addRotationKey_eq, setKeySet, AList.lookup_insert]

theorem addRotationKey_keySet (context : ContextData) (index : Int) (key : KeySwitchingKey) :
    (context.addRotationKey index key).keySet key.keyID =
      (context.keySet key.keyID).addKey (context.liftIndex index) key :=
  keySet_of_lookup (addRotationKey_lookup context index key)

end ContextData

namespace KeyPrecomputations

/-- An addition inserts a new key and leaves a stored key in place. -/
theorem addKey_rotKeys (keys : KeyPrecomputations) (index : Int) (key : KeySwitchingKey) :
    (keys.addKey index key).rotKeys =
      if (keys.rotKeys.lookup index).isSome then keys.rotKeys else keys.rotKeys.insert index key := by
  unfold addKey registerKey
  split
  case h_1 stored present =>
    rw [present]
    split <;> rfl
  case h_2 absent =>
    rw [absent]
    split <;> rfl

/-- An addition counts the bytes of the key that is stored afterwards. -/
theorem addKey_residentBytes (keys : KeyPrecomputations) (index : Int) (key : KeySwitchingKey) :
    (keys.addKey index key).residentBytes = keys.residentBytes +
      if ((keys.rotKeys.lookup index).getD key).resident then
        ((keys.rotKeys.lookup index).getD key).limbBytes else 0 := by
  unfold addKey registerKey
  split
  case h_1 stored present =>
    rw [present, Option.getD_some]
    split
    · rfl
    · exact (UInt64.add_zero _).symm
  case h_2 absent =>
    rw [absent, Option.getD_none]
    split
    · rfl
    · exact (UInt64.add_zero _).symm

/-- A key is stored at the index of its addition. -/
theorem addKey_lookup (keys : KeyPrecomputations) (index : Int) (key : KeySwitchingKey) :
    (keys.addKey index key).rotKeys.lookup index = some ((keys.rotKeys.lookup index).getD key) := by
  rw [addKey_rotKeys]
  cases present : keys.rotKeys.lookup index with
  | none => exact AList.lookup_insert _
  | some stored => exact present

theorem addKey_lookup_ne (keys : KeyPrecomputations) {index other : Int} (key : KeySwitchingKey)
    (different : other ≠ index) :
    (keys.addKey index key).rotKeys.lookup other = keys.rotKeys.lookup other := by
  rw [addKey_rotKeys]
  split
  · rfl
  · exact AList.lookup_insert_ne different

end KeyPrecomputations

namespace ContextData

/-- A rotation step is never stored at the conjugation index. -/
theorem keepsConjugation {context : ContextData} (ring : 0 < context.logN) (key : KeySwitchingKey)
    {index : Int} (step : index ≠ 2 * (context.N : Int) - 1) :
    context.KeepsConjugation key index := by
  obtain ⟨-, -, below, same⟩ := liftIndex_spec ring index
  have positive := half_pos ring
  have apart : context.liftIndex index ≠ 2 * (context.N : Int) - 1 := by
    rcases lt_or_ge index 0 with negative | natural
    · have small := below (by omega)
      omega
    · rw [same natural]
      exact step
  refine ⟨apart, ?_, fun slots => ?_⟩
  · intro conjugation tag
    have reserved : context.liftIndex (2 * (context.N : Int) - 1) = 2 * (context.N : Int) - 1 :=
      (liftIndex_spec ring _).2.2.2 (by omega)
    rw [← tag, addRotationKey_keySet, addRotationKey_liftIndex, reserved]
    exact KeyPrecomputations.addKey_lookup_ne _ conjugation apart
  · rw [← addRotationKey_N context index key]
    exact selectIndex_conjugation _ _ slots

/-- A second addition at the same place changes nothing exactly when the stored key holds no
bytes on the device. -/
theorem registersOnce_iff {context : ContextData} {key : KeySwitchingKey} {index other : Int}
    (same : context.liftIndex other = context.liftIndex index) :
    context.RegistersOnce key index other ↔
      (context.registeredKey index key).resident = false ∨
        (context.registeredKey index key).limbBytes = 0 := by
  have stored := KeyPrecomputations.addKey_lookup (context.keySet key.keyID)
    (context.liftIndex index) key
  have counted (repeated : KeySwitchingKey) (tag : repeated.keyID = key.keyID) :
      (((context.addRotationKey index key).addRotationKey other repeated).keySet
          key.keyID).residentBytes =
        ((context.addRotationKey index key).keySet key.keyID).residentBytes +
          if (context.registeredKey index key).resident then
            (context.registeredKey index key).limbBytes else 0 := by
    rw [← tag, addRotationKey_keySet, addRotationKey_liftIndex, same,
      KeyPrecomputations.addKey_residentBytes, tag, addRotationKey_keySet, stored,
      Option.getD_some]
    rfl
  constructor
  · rintro ⟨-, again⟩
    have unchanged := (again key rfl).2
    rw [counted key rfl] at unchanged
    by_cases resident : (context.registeredKey index key).resident
    · rw [if_pos resident] at unchanged
      right
      simpa using unchanged
    · left
      simpa using resident
  · intro free
    constructor
    · intro absent
      rw [addRotationKey_keySet, KeyPrecomputations.addKey_rotKeys,
        KeyPrecomputations.addKey_residentBytes, absent]
      exact ⟨rfl, rfl⟩
    · intro repeated tag
      constructor
      · rw [← tag, addRotationKey_keySet, addRotationKey_liftIndex, same, tag,
          addRotationKey_keySet, KeyPrecomputations.addKey_rotKeys _ _ repeated, stored]
        rfl
      · rw [counted repeated tag]
        rcases free with absent | empty
        · rw [absent]
          exact UInt64.add_zero _
        · rw [empty, ite_self]
          exact UInt64.add_zero _

/-- The calls of the cache agree on a rotation step exactly when the step is reduced and the key
was not added above half the ring dimension, and additions count once exactly when the stored key
holds no bytes on the device. -/
theorem rotation_index_addressing_iff {context : ContextData} (ring : 0 < context.logN)
    (key : KeySwitchingKey) {index other : Int}
    (congruent : index ≡ other [ZMOD (context.N / 2 : Nat)])
    (step : index ≠ 2 * (context.N : Int) - 1) (otherStep : other ≠ 2 * (context.N : Int) - 1) :
    context.IndexContract key index other ↔
      (index < (context.N / 2 : Nat) ∧ 0 ≤ other ∧ other < (context.N / 2 : Nat)) ∧
        ((context.registeredKey index key).resident = false ∨
          (context.registeredKey index key).limbBytes = 0) := by
  obtain ⟨above, moved, below, same⟩ := liftIndex_spec ring index
  have present := addRotationKey_lookup context index key
  have stored := KeyPrecomputations.addKey_lookup (context.keySet key.keyID)
    (context.liftIndex index) key
  have addressed := addressesKey_iff (by rw [addRotationKey_logN]; exact ring) present stored
    (by rw [addRotationKey_N]; exact otherStep)
  rw [addRotationKey_N] at addressed
  constructor
  · rintro ⟨addresses, once, -⟩
    obtain ⟨meets, natural, small⟩ := addressed.mp addresses
    have added : index < (context.N / 2 : Nat) := by
      rcases lt_or_ge index 0 with negative | positive
      · omega
      · rw [← same positive]
        exact small
    have lifted : context.liftIndex other = context.liftIndex index := by
      rw [meets, (liftIndex_spec ring _).2.2.2 natural]
    rw [meets]
    exact ⟨⟨added, natural, small⟩, (registersOnce_iff lifted).mp once⟩
  · rintro ⟨⟨small, natural, reduced⟩, free⟩
    have meets : other = context.liftIndex index := by
      have equal : context.liftIndex index % (context.N / 2 : Nat) =
          other % (context.N / 2 : Nat) := moved.trans congruent
      rw [Int.emod_eq_of_lt above (below small), Int.emod_eq_of_lt natural reduced] at equal
      exact equal.symm
    have lifted : context.liftIndex other = context.liftIndex index := by
      rw [meets, (liftIndex_spec ring _).2.2.2 above]
    exact ⟨addressed.mpr ⟨meets, above, below small⟩, (registersOnce_iff lifted).mpr free,
      keepsConjugation ring key step⟩

/-- A key that waits on the host is addressed by the reduced step of a negative addition. -/
theorem rotation_index_addressing_iff_negative :
    ({ logN := 2 } : ContextData).IndexContract { keyID := "key", hasSnapshot := true } (-1) 1 :=
  (rotation_index_addressing_iff (by decide) _ (by decide) (by decide) (by decide)).mpr
    ⟨by decide, Or.inl rfl⟩

/-- A pin by the negative step of an addition is lost. -/
theorem negative_step_unaddressed :
    ¬∀ (context : ContextData) (key : KeySwitchingKey) (index other : Int), 0 < context.logN →
      index ≡ other [ZMOD (context.N / 2 : Nat)] → index ≠ 2 * (context.N : Int) - 1 →
      other ≠ 2 * (context.N : Int) - 1 → context.IndexContract key index other := by
  intro all
  have contract := all { logN := 2 } { keyID := "key", hasSnapshot := true } (-1) (-1) (by decide)
    (.refl _) (by decide) (by decide)
  have pinned : (∅ : Finset Int) = insert (1 : Int) ∅ := contract.addresses.pin true "key" rfl
  have marked : (1 : Int) ∈ insert (1 : Int) (∅ : Finset Int) := Finset.mem_insert_self _ _
  rw [← pinned] at marked
  exact Finset.notMem_empty _ marked

end ContextData
end Fideslib.RotationKeys
