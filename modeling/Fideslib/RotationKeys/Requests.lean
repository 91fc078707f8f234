/-
This file settles which key a rotation of a ciphertext is given.
-/

import Fideslib.LinearTransform.Rotation
import Fideslib.RotationKeys.Addressing

namespace Fideslib.RotationKeys

open LinearTransform (normalyzeIndex normalyzeIndex_congr normalyzeIndex_range)

namespace KeyPrecomputations

/-- Every stored key is on the device or has a host snapshot. -/
def Loadable (keys : KeyPrecomputations) : Prop :=
  ∀ index key, keys.rotKeys.lookup index = some key → key.resident ∨ key.hasSnapshot

variable {keys : KeyPrecomputations}

theorem loadable_empty : ({} : KeyPrecomputations).Loadable := by
  intro index key present
  cases present

/-- A key that can be loaded may take the place of another one. -/
theorem Loadable.insert (held : keys.Loadable) {index : Int} {key : KeySwitchingKey}
    (ready : key.resident ∨ key.hasSnapshot) {other : Int} {stored : KeySwitchingKey}
    (present : (keys.rotKeys.insert index key).lookup other = some stored) :
    stored.resident ∨ stored.hasSnapshot := by
  by_cases same : other = index
  · rw [same, AList.lookup_insert] at present
    exact Option.some.inj present ▸ ready
  · rw [AList.lookup_insert_ne same] at present
    exact held other stored present

theorem Loadable.offloadKey (held : keys.Loadable) (index : Int) :
    (keys.offloadKey index).1.Loadable := by
  rcases offloadKey_cases keys index with same | ⟨key, present, resident, snapshot, moved⟩
  · rw [same]
    exact held
  · intro other stored found
    rw [moved, forgetLru_rotKeys] at found
    have ready : ({ key with resident := false } : KeySwitchingKey).resident ∨
        ({ key with resident := false } : KeySwitchingKey).hasSnapshot := Or.inr snapshot
    exact held.insert ready found

theorem Loadable.evictToFit (held : keys.Loadable) {fuel : Nat} {budget incoming : UInt64}
    {result : KeyPrecomputations} (ran : keys.evictToFit fuel budget incoming = some result) :
    result.Loadable :=
  evictToFit_invariant Loadable (fun _ index stays => stays.offloadKey index) ran held

theorem Loadable.ensureResident (held : keys.Loadable) {fuel : Nat} {index : Int}
    {budget : UInt64} {mayEvict : Bool} {next : KeyPrecomputations}
    {outcome : Except CacheError KeySwitchingKey}
    (ran : keys.ensureResident fuel index budget mayEvict = some (next, outcome)) :
    next.Loadable := by
  rcases ensureResident_cases ran with rfl | ⟨key, present, resident, rfl⟩ |
    ⟨key, fitted, present, absent, source, loads⟩
  · exact held
  · intro other stored found
    rw [touch_rotKeys] at found
    exact held other stored found
  · have evicted : fitted.Loadable := by
      rcases source with rfl | ran
      · exact held
      · exact held.evictToFit ran
    rcases loads with rfl | ⟨_, rfl⟩
    · exact evicted
    · intro other stored found
      rw [touch_rotKeys] at found
      exact evicted.insert (Or.inl rfl) found

theorem Loadable.addKey (held : keys.Loadable) (index : Int) {key : KeySwitchingKey}
    (ready : key.resident ∨ key.hasSnapshot) : (keys.addKey index key).Loadable := by
  intro other stored found
  rw [addKey_rotKeys] at found
  split at found
  · exact held other stored found
  · exact held.insert ready found

end KeyPrecomputations

/-- An added key is on the device or has a host snapshot. -/
def AddsLoadable (call : Call) (_ : ContextData) : Prop :=
  match call with
  | .addRotationKey _ key => key.resident ∨ key.hasSnapshot
  | _ => True

theorem KeySetStep.loadable {context : ContextData} {keyID : KeyHash}
    {next : KeyPrecomputations} {call : Call}
    (moved : KeySetStep context keyID (context.keySet keyID) call next)
    (meets : AddsLoadable call context) (held : (context.keySet keyID).Loadable) :
    next.Loadable := by
  cases moved with
  | same => exact held
  | add index key tag => exact held.addKey _ meets
  | ensure _ ran => exact held.ensureResident ran
  | offload _ indexes =>
      exact KeyPrecomputations.offloadKeys_invariant KeyPrecomputations.Loadable
        (fun _ index stays => stays.offloadKey index) indexes held
  | pin _ index pin =>
      intro other stored found
      apply held other stored
      rw [← found]
      unfold KeyPrecomputations.pinKey
      split
      · rfl
      · split <;> rfl
  | enforce _ ran => exact held.evictToFit ran
  | clear =>
      intro other stored found
      cases found

/-- Every run that adds loadable keys keeps the stored keys loadable. -/
theorem run_loadable {logN : Nat} {context : ContextData}
    (run : StateMachine.Run Call.Step AddsLoadable { logN := logN } context) (keyID : KeyHash) :
    (context.keySet keyID).Loadable := by
  refine run.invariant (fun current => (current.keySet keyID).Loadable)
    KeyPrecomputations.loadable_empty ?_
  intro call before after meets moved held
  exact (call.step_keySet moved keyID).loadable meets held

namespace ContextData

/-- A rotation key is stored at this index. -/
def Registered (context : ContextData) (keyID : KeyHash) (index : Int) : Prop :=
  index ≠ 2 * (context.N : Int) - 1 ∧ ((context.keySet keyID).rotKeys.lookup index).isSome

/-- A rotation asks for the normalised index. -/
def requestRotationKey (fuel : Nat) (context : ContextData) (index : Int) (keyID : KeyHash)
    (slots : Nat) : Option (ContextData × Except CacheError (KeySwitchingKey × Int)) :=
  context.getRotationKeyForSlots fuel (normalyzeIndex index slots context.N) keyID slots

section Selection

variable {context : ContextData} {keys : KeyPrecomputations} {slots : Nat}
  (positive : 0 < slots) (divides : slots ∣ context.N / 2) {index : Int} (above : 0 ≤ index)
  (below : index < (context.N / 2 : Nat))

/-- The search ends at this index. -/
def chosenIndex (context : ContextData) (keys : KeyPrecomputations) (index slots : Int) : Int :=
  match keys.rotKeys.lookup index with
  | some _ => index
  | none => context.alternativeIndex keys index slots

/-- The counters of the search are read as signed numbers. -/
theorem mem_counters {counters : List Nat} {step : Int} :
    step ∈ (do let counter ← counters; pure (counter : Int)) ↔
      ∃ counter ∈ counters, (counter : Int) = step := by
  rw [List.bind_eq_flatMap, List.mem_flatMap]
  simp only [List.pure_def, List.mem_singleton, eq_comm]

/-- A request visits these indexes one after the other. -/
def visitedIndex (context : ContextData) (index : Int) (slots step : Nat) : Int :=
  (index + (step : Int) * slots) % (context.N / 2 : Nat)

include positive divides above below

/-- The search visits each index of a class below half the ring dimension. -/
theorem class_visited {other : Int} (natural : 0 ≤ other) (small : other < (context.N / 2 : Nat))
    (congruent : other ≡ index [ZMOD slots]) :
    other = index ∨ slots ≠ context.N / 2 ∧ ∃ step : Nat,
      step < (((context.N / 2 : Nat) : Int).tdiv slots).toNat - 1 ∧
        (index + ((step : Int) + 1) * slots).tmod (context.N / 2 : Nat) = other := by
  set half := context.N / 2 with half_def
  obtain ⟨count, whole⟩ := divides
  have rounds : ((half : Int).tdiv slots).toNat = count := by
    rw [whole, show ((slots * count : Nat) : Int).tdiv slots = ((slots * count / slots : Nat) : Int)
      from rfl, Int.toNat_natCast, Nat.mul_div_cancel_left _ positive]
  by_cases same : other = index
  · exact Or.inl same
  · right
    obtain ⟨k, distance⟩ := Int.modEq_iff_dvd.mp congruent.symm
    have size : (half : Int) = slots * count := by rw [whole, Nat.cast_mul]
    have moved : other = index + k * slots := by
      rw [mul_comm]
      omega
    have nonzero : k ≠ 0 := by
      rintro rfl
      exact same (by rw [moved, zero_mul, add_zero])
    have slots_pos : (0 : Int) < slots := by omega
    have high : k < count := by
      by_contra large
      have product : (count : Int) * slots ≤ k * slots :=
        Int.mul_le_mul_of_nonneg_right (not_lt.mp large) slots_pos.le
      rw [mul_comm (count : Int), ← size] at product
      omega
    have low : -(count : Int) < k := by
      by_contra small_k
      have product : k * slots ≤ -(count : Int) * slots :=
        Int.mul_le_mul_of_nonneg_right (not_lt.mp small_k) slots_pos.le
      rw [neg_mul, mul_comm (count : Int), ← size] at product
      omega
    have sparse : slots ≠ half := by
      rintro dense
      have one : count = 1 := by
        have product : slots * count = slots * 1 := by omega
        exact Nat.eq_of_mul_eq_mul_left positive product
      omega
    refine ⟨sparse, ?_⟩
    rw [rounds]
    -- A step backwards is a step around the ring.
    rcases lt_or_gt_of_ne nonzero with negative | forward
    · refine ⟨(k + count - 1).toNat, by omega, ?_⟩
      have around : index + (((k + count - 1).toNat : Int) + 1) * slots = other + half := by
        rw [Int.toNat_of_nonneg (by omega), moved, size]
        ring
      rw [around, Int.tmod_eq_emod_of_nonneg (by omega), Int.add_emod_right,
        Int.emod_eq_of_lt natural small]
    · refine ⟨(k - 1).toNat, by omega, ?_⟩
      have straight : index + (((k - 1).toNat : Int) + 1) * slots = other := by
        rw [Int.toNat_of_nonneg (by omega), moved]
        ring
      rw [straight, Int.tmod_eq_of_lt natural small]

omit positive in
/-- The chosen index is below half the ring dimension and in the class of the request. -/
theorem chosenIndex_class :
    0 ≤ context.chosenIndex keys index slots ∧
      context.chosenIndex keys index slots < (context.N / 2 : Nat) ∧
      context.chosenIndex keys index slots ≡ index [ZMOD slots] := by
  have itself : 0 ≤ index ∧ index < (context.N / 2 : Nat) ∧ index ≡ index [ZMOD slots] :=
    ⟨above, below, .refl _⟩
  unfold chosenIndex
  split
  · exact itself
  · unfold alternativeIndex
    dsimp only
    split
    · generalize search : List.find? _ _ = found
      cases found with
      | none => exact itself
      | some other =>
          obtain ⟨step, counted, rfl⟩ := List.mem_map.mp (List.mem_of_find?_eq_some search)
          obtain ⟨counter, -, rfl⟩ := mem_counters.mp counted
          have forward : 0 ≤ ((counter : Int) + 1) * slots :=
            Int.mul_nonneg (by omega) (Int.natCast_nonneg slots)
          have sum : 0 ≤ index + ((counter : Int) + 1) * slots := by omega
          refine ⟨Int.tmod_nonneg _ sum, Int.tmod_lt_of_pos _ (by omega), ?_⟩
          rw [Option.getD_some, Int.tmod_eq_emod_of_nonneg sum]
          have whole : (slots : Int) ∣ ((context.N / 2 : Nat) : Int) :=
            Int.natCast_dvd_natCast.mpr divides
          have reduced := (Int.mod_modEq (index + ((counter : Int) + 1) * slots)
            ((context.N / 2 : Nat) : Int)).of_dvd whole
          have multiple : index + ((counter : Int) + 1) * slots ≡ index [ZMOD slots] := by
            rw [Int.ModEq, Int.add_mul_emod_self_right]
          exact reduced.trans multiple
    · exact itself

/-- The search finds a key where the class has one below half the ring dimension. -/
theorem chosenIndex_stored {other : Int} (natural : 0 ≤ other)
    (small : other < (context.N / 2 : Nat)) (congruent : other ≡ index [ZMOD slots])
    (stored : (keys.rotKeys.lookup other).isSome) :
    (keys.rotKeys.lookup (context.chosenIndex keys index slots)).isSome := by
  cases direct : keys.rotKeys.lookup index with
  | some key =>
      have itself : context.chosenIndex keys index slots = index := by
        rw [chosenIndex, direct]
      rw [itself, direct, Option.isSome_some]
  | none =>
      have moved : context.chosenIndex keys index slots =
          context.alternativeIndex keys index slots := by
        rw [chosenIndex, direct]
      rcases class_visited positive divides above below natural small congruent with
        rfl | ⟨sparse, step, inside, reached⟩
      · rw [direct] at stored
        cases stored
      · have proper : (slots : Int) ≠ -1 ∧ (slots : Int) ≠ (context.N / 2 : Nat) := by omega
        rw [moved, alternativeIndex, if_pos proper]
        generalize search : List.find? _ _ = found
        cases found with
        | none =>
            have rejected := List.find?_eq_none.mp search other
              (List.mem_map.mpr ⟨step, mem_counters.mpr ⟨step, List.mem_range.mpr inside, rfl⟩,
                reached⟩)
            exact absurd stored rejected
        | some first =>
            have accepted := List.find?_some search
            exact accepted

omit divides in
/-- The search ends at the first visited index with a key. -/
theorem chosenIndex_first {step : Nat} (inside : step < context.N / 2 / slots)
    (stored : (keys.rotKeys.lookup (context.visitedIndex index slots step)).isSome)
    (first : ∀ earlier < step,
      keys.rotKeys.lookup (context.visitedIndex index slots earlier) = none) :
    context.chosenIndex keys index slots = context.visitedIndex index slots step := by
  have start : context.visitedIndex index slots 0 = index := by
    rw [visitedIndex, Nat.cast_zero, zero_mul, add_zero, Int.emod_eq_of_lt above below]
  cases step with
  | zero =>
      rw [start] at stored ⊢
      obtain ⟨key, direct⟩ := Option.isSome_iff_exists.mp stored
      rw [chosenIndex, direct]
  | succ step =>
      have direct : keys.rotKeys.lookup index = none := start ▸ first 0 (Nat.succ_pos step)
      have several : slots < context.N / 2 := by
        by_contra large
        have single : context.N / 2 / slots ≤ 1 := by
          rw [← Nat.div_self positive]
          exact Nat.div_le_div_right (not_lt.mp large)
        omega
      have proper : (slots : Int) ≠ -1 ∧ (slots : Int) ≠ (context.N / 2 : Nat) := by omega
      have rounds : (((context.N / 2 : Nat) : Int).tdiv slots).toNat = context.N / 2 / slots := rfl
      have same (counter : Nat) :
          (index + ((counter : Int) + 1) * slots).tmod (context.N / 2 : Nat) =
            context.visitedIndex index slots (counter + 1) := by
        have forward : 0 ≤ ((counter : Int) + 1) * slots :=
          Int.mul_nonneg (by omega) (Int.natCast_nonneg slots)
        rw [Int.tmod_eq_emod_of_nonneg (by omega), visitedIndex, Nat.cast_succ]
      have counters (count : Nat) : (do let counter ← List.range count; pure (counter : Int)) =
          (List.range count).map Nat.cast := List.map_eq_flatMap.symm
      have found : ((List.range (context.N / 2 / slots - 1)).find? fun counter =>
          (keys.rotKeys.lookup (context.visitedIndex index slots (counter + 1))).isSome) =
            some step := by
        rw [List.find?_range_eq_some]
        refine ⟨stored, List.mem_range.mpr (by omega), ?_⟩
        intro earlier before
        rw [first (earlier + 1) (by omega)]
        rfl
      rw [chosenIndex, direct, alternativeIndex, if_pos proper, rounds, counters, List.map_map,
        List.find?_map]
      simp only [Function.comp_def, same]
      rw [found, Option.map_some, Option.getD_some]

/-- Where the search finds a key, it ends at the first visited index that has one. -/
theorem exists_first (stored : (keys.rotKeys.lookup (context.chosenIndex keys index slots)).isSome) :
    ∃ step < context.N / 2 / slots,
      context.visitedIndex index slots step = context.chosenIndex keys index slots ∧
        ∀ earlier < step, keys.rotKeys.lookup (context.visitedIndex index slots earlier) = none := by
  classical
  obtain ⟨natural, small, congruent⟩ := @chosenIndex_class context keys slots divides index above
    below
  have reached : ∃ step, step < context.N / 2 / slots ∧
      context.visitedIndex index slots step = context.chosenIndex keys index slots := by
    have some_round : 0 < context.N / 2 / slots :=
      Nat.div_pos (Nat.le_of_dvd (by omega) divides) positive
    rcases class_visited positive divides above below natural small congruent with
      itself | ⟨-, step, inside, reached⟩
    · refine ⟨0, some_round, ?_⟩
      rw [visitedIndex, Nat.cast_zero, zero_mul, add_zero, Int.emod_eq_of_lt above below, itself]
    · have rounds : (((context.N / 2 : Nat) : Int).tdiv slots).toNat = context.N / 2 / slots := rfl
      have forward : 0 ≤ ((step : Int) + 1) * slots :=
        Int.mul_nonneg (by omega) (Int.natCast_nonneg slots)
      refine ⟨step + 1, by omega, ?_⟩
      rw [visitedIndex, Nat.cast_succ, ← Int.tmod_eq_emod_of_nonneg (by omega), reached]
  obtain ⟨last, bound, ends⟩ := reached
  have hit : ∃ step, (keys.rotKeys.lookup (context.visitedIndex index slots step)).isSome :=
    ⟨last, by rw [ends]; exact stored⟩
  have least : Nat.find hit ≤ last := Nat.find_min' hit (by rw [ends]; exact stored)
  have first (earlier : Nat) (before : earlier < Nat.find hit) :
      keys.rotKeys.lookup (context.visitedIndex index slots earlier) = none :=
    Option.not_isSome_iff_eq_none.mp (Nat.find_min hit before)
  refine ⟨Nat.find hit, by omega, ?_, first⟩
  exact (chosenIndex_first positive above below (by omega) (Nat.find_spec hit) first).symm

omit positive divides in
theorem selectIndex_chosen :
    context.selectIndex keys index slots =
      match keys.rotKeys.lookup (context.chosenIndex keys index slots) with
      | none => .error (.runtimeError
          s!"Rotation index{context.chosenIndex keys index slots} not found")
      | some _ => .ok (context.chosenIndex keys index slots) := by
  have step : index ≠ 2 * (context.N : Int) - 1 := by omega
  have reduced : index.tmod (context.N / 2 : Nat) = index := Int.tmod_eq_of_lt above below
  unfold selectIndex chosenIndex
  dsimp only
  rw [if_neg step, reduced]
  generalize lifted : (if index < 0 then index + (context.N / 2 : Nat) else index) = start
  rw [if_neg (by omega)] at lifted
  subst lifted
  rfl

end Selection

/-- A fetch of a loadable key does not fail. -/
theorem fetchRotationKey_loads {context reached : ContextData} {keyID : KeyHash}
    {keys : KeyPrecomputations} {slot : Int} {stored : KeySwitchingKey} {fuel : Nat}
    (known : keys.rotKeys.lookup slot = some stored)
    (ready : stored.resident ∨ stored.hasSnapshot) (failure : CacheError) :
    context.fetchRotationKey fuel keyID keys slot ≠ some (reached, .error failure) := by
  intro ran
  obtain ⟨⟨next, outcome⟩, ensured, shape⟩ := Option.map_eq_some_iff.mp ran
  have fails : outcome = .error failure := congrArg Prod.snd shape
  rw [KeyPrecomputations.ensureResident, known] at ensured
  dsimp only at ensured
  by_cases resident : stored.resident
  · rw [if_pos resident] at ensured
    have loaded := (congrArg Prod.snd (Option.some.inj ensured)).trans fails
    cases loaded
  · have snapshot : stored.hasSnapshot := ready.resolve_left resident
    have loads : stored.ensureResident = .ok { stored with resident := true } := by
      rw [KeySwitchingKey.ensureResident, if_neg resident, if_pos snapshot]
    rw [if_neg resident, loads] at ensured
    obtain ⟨fitted, -, fetched⟩ := Option.map_eq_some_iff.mp ensured
    have loaded := (congrArg Prod.snd fetched).trans fails
    cases loaded

/-- A rotation gets a registered key of its class and fails exactly where the class has none. -/
structure RequestContract (context : ContextData) (keyID : KeyHash) (index : Int) (slots : Nat) :
    Prop where
  returns : ∀ fuel reached key actual,
    context.requestRotationKey fuel index keyID slots = some (reached, .ok (key, actual)) →
      context.Registered keyID actual ∧ actual ≡ index [ZMOD slots] ∧
        ∃ stored, (context.keySet keyID).rotKeys.lookup actual = some stored ∧
          key = { stored with resident := true }
  answers : ∃ fuel answer, context.requestRotationKey fuel index keyID slots = some answer
  throws : ∀ fuel,
    (∃ reached failure, context.requestRotationKey fuel index keyID slots =
        some (reached, .error failure)) ↔
      ¬∃ other, context.Registered keyID other ∧ other ≡ index [ZMOD slots]

/-- The eviction loop makes room for the key that the request comes to first. -/
def FirstKeyFits (context : ContextData) (keyID : KeyHash) (index : Int) (slots : Nat) : Prop :=
  let keys := context.keySet keyID
  let visited := context.visitedIndex (normalyzeIndex index slots context.N) slots
  ∀ step < context.N / 2 / slots, ∀ key, keys.rotKeys.lookup (visited step) = some key →
    (∀ earlier < step, keys.rotKeys.lookup (visited earlier) = none) → key.resident = false →
      context.rotationKeyEvictionHold = 0 →
        keys.CanFit context.rotationKeyCacheBytes key.limbBytes

section Requests

variable {context : ContextData} (ring : 0 < context.logN) {keyID : KeyHash} {slots : Nat}
  (positive : 0 < slots) (divides : slots ∣ context.N / 2)

include ring positive divides

/-- A request selects a registered key exactly where its class has one below half the ring. -/
theorem request_selects (index : Int) :
    let keys := context.keySet keyID
    let actual := context.chosenIndex keys (normalyzeIndex index slots context.N) slots
    actual ≠ 2 * (context.N : Int) - 1 ∧ actual ≡ index [ZMOD slots] ∧
      0 ≤ actual ∧ actual < (context.N / 2 : Nat) ∧
      (∀ other, context.Registered keyID other → other ≡ index [ZMOD slots] → 0 ≤ other →
        other < (context.N / 2 : Nat) → (keys.rotKeys.lookup actual).isSome) := by
  have full : 0 < context.N / 2 := by
    have half := half_pos ring
    omega
  obtain ⟨above, below⟩ := normalyzeIndex_range positive divides full index
  have normal : normalyzeIndex index slots context.N ≡ index [ZMOD slots] :=
    (Int.modEq_iff_dvd.mpr (normalyzeIndex_congr divides index)).symm
  obtain ⟨natural, small, congruent⟩ := @chosenIndex_class context (context.keySet keyID) slots
    divides _ above below
  refine ⟨by omega, congruent.trans normal, natural, small, ?_⟩
  intro other registered same low high
  exact chosenIndex_stored positive divides above below low high (same.trans normal.symm)
    registered.2

theorem request_eq {keys : KeyPrecomputations} (present : context.keys.lookup keyID = some keys)
    (fuel : Nat) (index : Int) :
    context.requestRotationKey fuel index keyID slots =
      match keys.rotKeys.lookup
          (context.chosenIndex keys (normalyzeIndex index slots context.N) slots) with
      | none => some (context, .error (.runtimeError
          s!"Rotation index{context.chosenIndex keys (normalyzeIndex index slots context.N) slots} not found"))
      | some _ => (context.fetchRotationKey fuel keyID keys
          (context.chosenIndex keys (normalyzeIndex index slots context.N) slots)).map fun result =>
            (result.1, result.2.map fun key =>
              (key, context.chosenIndex keys (normalyzeIndex index slots context.N) slots)) := by
  have full : 0 < context.N / 2 := by
    have half := half_pos ring
    omega
  obtain ⟨above, below⟩ := normalyzeIndex_range positive divides full index
  rw [requestRotationKey, getRotationKeyForSlots_eq context present,
    selectIndex_chosen above below]
  cases keys.rotKeys.lookup
    (context.chosenIndex keys (normalyzeIndex index slots context.N) slots) <;> rfl

/-- A request fails exactly where its search ends at an index without a key. -/
theorem request_fails (loadable : (context.keySet keyID).Loadable) (fuel : Nat) (index : Int) :
    (∃ reached failure, context.requestRotationKey fuel index keyID slots =
        some (reached, .error failure)) ↔
      (context.keySet keyID).rotKeys.lookup (context.chosenIndex (context.keySet keyID)
        (normalyzeIndex index slots context.N) slots) = none := by
  cases present : context.keys.lookup keyID with
  | none =>
      have missing : context.keySet keyID = {} := by rw [keySet, present, Option.getD_none]
      have failed : context.requestRotationKey fuel index keyID slots =
          some (context, .error .outOfRange) := by
        rw [requestRotationKey, getRotationKeyForSlots, present]
      rw [missing]
      exact ⟨fun _ => rfl, fun _ => ⟨context, .outOfRange, failed⟩⟩
  | some keys =>
      rw [keySet_of_lookup present] at loadable ⊢
      rw [request_eq ring positive divides present]
      cases found : keys.rotKeys.lookup
          (context.chosenIndex keys (normalyzeIndex index slots context.N) slots) with
      | none => exact ⟨fun _ => rfl, fun _ => ⟨context, _, rfl⟩⟩
      | some stored =>
          constructor
          · rintro ⟨reached, failure, fails⟩
            obtain ⟨⟨next, outcome⟩, fetched, shape⟩ := Option.map_eq_some_iff.mp fails
            cases outcome with
            | ok key =>
                have mapped := congrArg Prod.snd shape
                cases mapped
            | error other =>
                exact absurd fetched (fetchRotationKey_loads found (loadable _ _ found) other)
          · intro none
            cases none

/-- The answer to a request is the stored key that the search ends at. -/
theorem request_returns {fuel : Nat} {index actual : Int} {reached : ContextData}
    {key : KeySwitchingKey}
    (ran : context.requestRotationKey fuel index keyID slots = some (reached, .ok (key, actual))) :
    actual = context.chosenIndex (context.keySet keyID) (normalyzeIndex index slots context.N)
        slots ∧
      ∃ stored, (context.keySet keyID).rotKeys.lookup actual = some stored ∧
        key = { stored with resident := true } := by
  cases present : context.keys.lookup keyID with
  | none =>
      rw [requestRotationKey, getRotationKeyForSlots, present] at ran
      cases ran
  | some keys =>
      rw [keySet_of_lookup present]
      rw [request_eq ring positive divides present] at ran
      cases found : keys.rotKeys.lookup
          (context.chosenIndex keys (normalyzeIndex index slots context.N) slots) with
      | none =>
          rw [found] at ran
          cases ran
      | some stored =>
          rw [found] at ran
          obtain ⟨⟨next, outcome⟩, fetched, shape⟩ := Option.map_eq_some_iff.mp ran
          cases outcome with
          | error failure =>
              have mapped := congrArg Prod.snd shape
              cases mapped
          | ok loaded =>
              have mapped := Except.ok.inj (congrArg Prod.snd shape)
              obtain ⟨rfl, rfl⟩ := Prod.mk.inj mapped
              exact ⟨rfl, stored, found, fetchRotationKey_returns found fetched⟩

/-- A request is answered exactly where the eviction loop makes room for its first key. -/
theorem request_answers_iff (wf : (context.keySet keyID).LruWf) (index : Int) :
    (∃ fuel answer, context.requestRotationKey fuel index keyID slots = some answer) ↔
      context.FirstKeyFits keyID index slots := by
  cases present : context.keys.lookup keyID with
  | none =>
      have missing : context.keySet keyID = {} := by rw [keySet, present, Option.getD_none]
      refine iff_of_true ⟨0, (context, .error .outOfRange), ?_⟩ ?_
      · rw [requestRotationKey, getRotationKeyForSlots, present]
      · intro step _ key found
        rw [missing] at found
        cases found
  | some keys =>
      have full : 0 < context.N / 2 := by
        have half := half_pos ring
        omega
      obtain ⟨above, below⟩ := normalyzeIndex_range positive divides full index
      rw [keySet_of_lookup present] at wf
      unfold FirstKeyFits
      rw [keySet_of_lookup present]
      dsimp only
      cases found : keys.rotKeys.lookup
          (context.chosenIndex keys (normalyzeIndex index slots context.N) slots) with
      | none =>
          have answered := request_eq ring positive divides present 0 index
          rw [found] at answered
          refine iff_of_true ⟨0, _, answered⟩ ?_
          intro step inside key visited first
          have chosen := chosenIndex_first positive above below inside
            (by rw [visited, Option.isSome_some]) first
          rw [chosen, visited] at found
          cases found
      | some stored =>
          obtain ⟨step, inside, ends, first⟩ := exists_first positive divides above below
            (by rw [found, Option.isSome_some])
          have fetches : (∃ fuel answer,
              context.requestRotationKey fuel index keyID slots = some answer) ↔
              ∃ fuel result, keys.ensureResident fuel
                (context.chosenIndex keys (normalyzeIndex index slots context.N) slots)
                context.rotationKeyCacheBytes (context.rotationKeyEvictionHold == 0) =
                  some result := by
            refine exists_congr fun fuel => ?_
            rw [request_eq ring positive divides present, found]
            simp only [fetchRotationKey, Option.map_map, ← Option.isSome_iff_exists,
              Option.isSome_map]
          rw [fetches, KeyPrecomputations.ensureResident_returns_iff wf, found]
          constructor
          · intro fits other within key visited leads absent free
            have chosen := chosenIndex_first positive above below within
              (by rw [visited, Option.isSome_some]) leads
            rw [chosen, visited] at found
            exact fits key found.symm absent (by rw [free]; rfl)
          · intro fits key same absent free
            rw [← found, ← ends] at same
            exact fits step inside key same first absent (eq_of_beq free)

end Requests

/-- In every run, requests are answered as they should be exactly where a class with a registered
key has one below half the ring dimension and the key found first fits into the cache. -/
theorem request_contract_iff {logN : Nat} {context : ContextData}
    (run : StateMachine.Run Call.Step AddsLoadable { logN := logN } context)
    (ring : 0 < context.logN) (keyID : KeyHash) (index : Int) {slots : Nat} (positive : 0 < slots)
    (divides : slots ∣ context.N / 2) :
    context.RequestContract keyID index slots ↔
      ((∃ other, context.Registered keyID other ∧ other ≡ index [ZMOD slots]) →
        ∃ other, context.Registered keyID other ∧ other ≡ index [ZMOD slots] ∧ 0 ≤ other ∧
          other < (context.N / 2 : Nat)) ∧
      context.FirstKeyFits keyID index slots := by
  have loadable := run_loadable run keyID
  have reached : Reachable context := ⟨logN, run.weaken fun _ _ _ => trivial⟩
  have answers := request_answers_iff ring positive divides (reached.lruWf keyID) index
  obtain ⟨step, congruent, natural, small, complete⟩ :=
    @request_selects context ring keyID slots positive divides index
  constructor
  · rintro ⟨-, answered, throws⟩
    refine ⟨fun registered => ?_, answers.mp answered⟩
    have stored : ¬(context.keySet keyID).rotKeys.lookup (context.chosenIndex
        (context.keySet keyID) (normalyzeIndex index slots context.N) slots) = none := by
      intro none
      have failed := (request_fails ring positive divides loadable 0 index).mpr none
      exact (throws 0).mp failed registered
    exact ⟨_, ⟨step, Option.ne_none_iff_isSome.mp stored⟩, congruent, natural, small⟩
  · rintro ⟨low, fits⟩
    refine ⟨?_, answers.mpr fits, ?_⟩
    · intro fuel reached key actual ran
      obtain ⟨rfl, stored, found, loaded⟩ := request_returns ring positive divides ran
      exact ⟨⟨step, by rw [found, Option.isSome_some]⟩, congruent, stored, found, loaded⟩
    · intro fuel
      rw [request_fails ring positive divides loadable]
      constructor
      · intro none registered
        obtain ⟨other, known, same, above, below⟩ := low registered
        have found := complete other known same above below
        rw [none] at found
        cases found
      · intro absent
        by_contra stored
        exact absent ⟨_, ⟨step, Option.ne_none_iff_isSome.mp stored⟩, congruent⟩

/-- A request for the third key evicts the loaded key that is not pinned. -/
theorem request_contract_iff_pinnedContext : pinnedContext.RequestContract "key" (-1) 4 := by
  have run : StateMachine.Run Call.Step AddsLoadable { logN := 3 } pinnedContext :=
    pinnedContext_run (fun _ _ _ => Or.inr rfl) (fun _ _ => trivial) (fun _ _ => trivial)
      (fun _ _ => trivial)
  refine (request_contract_iff run (by decide) "key" (-1) (by decide) (by decide)).mpr ⟨?_, ?_⟩
  · intro
    exact ⟨3, ⟨by decide, rfl⟩, by decide, by decide, by decide⟩
  · intro step inside key found first absent free
    exact Or.inl rfl

/-- A key added at an index from half the ring dimension on is never found. -/
def wideContext : ContextData := ({ logN := 2 } : ContextData).addRotationKey 3 eagerKey

theorem wide_index_unanswered :
    ¬∀ context, Reachable context → 0 < context.logN → ∀ keyID index (slots : Nat), 0 < slots →
      slots ∣ context.N / 2 → context.RequestContract keyID index slots := by
  intro all
  have added : Call.Step (.addRotationKey 3 eagerKey) { logN := 2 } wideContext := ⟨0, rfl⟩
  have contract := all wideContext ⟨2, StateMachine.Run.start.next trivial added⟩ (by decide) "key"
    1 2 (by decide) (by decide)
  have failed : wideContext.requestRotationKey 0 1 "key" 2 =
      some (wideContext, .error (.runtimeError "Rotation index1 not found")) := by
    rfl
  exact (contract.throws 0).mp ⟨_, _, failed⟩ ⟨3, ⟨by decide, rfl⟩, by decide⟩

end ContextData
end Fideslib.RotationKeys
