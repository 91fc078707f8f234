/-
This file settles when the eviction loop returns and what it leaves resident.
-/

import Fideslib.RotationKeys.Lru

namespace Fideslib.RotationKeys
namespace KeyPrecomputations

/-- The scan order lists the unpinned indexes from the oldest to the newest. -/
def evictionOrder (keys : KeyPrecomputations) : List Int :=
  keys.recency.reverse.filter (· ∉ keys.pinned)

/-- The candidates are the unpinned listed keys from the oldest to the newest. -/
def candidates (keys : KeyPrecomputations) : List KeySwitchingKey :=
  keys.evictionOrder.filterMap keys.rotKeys.lookup

/-- These bytes stay resident after the given keys leave. -/
def bytesWithout (bytes : UInt64) (gone : List KeySwitchingKey) : UInt64 :=
  gone.foldl (fun left key => left - key.limbBytes) bytes

/-- The oldest candidates with a snapshot free enough bytes, or every candidate has a snapshot. -/
def CanFit (budget incoming : UInt64) (keys : KeyPrecomputations) : Prop :=
  let ready := keys.candidates.takeWhile KeySwitchingKey.hasSnapshot
  ready = keys.candidates ∨
    ∃ count ≤ ready.length, bytesWithout keys.residentBytes (ready.take count) + incoming ≤ budget

/-- The request fits, or every listed key is pinned or has no snapshot. -/
def Settled (budget incoming : UInt64) (keys : KeyPrecomputations) : Prop :=
  keys.residentBytes + incoming ≤ budget ∨
    ∀ index ∈ keys.recency, index ∈ keys.pinned ∨
      ∀ key, keys.rotKeys.lookup index = some key → key.hasSnapshot = false

/-- Every resident key that is pinned or has no snapshot stays resident. -/
def KeepsUnevictable (before after : KeyPrecomputations) : Prop :=
  ∀ index key, before.rotKeys.lookup index = some key → key.resident →
    index ∈ before.pinned ∨ key.hasSnapshot = false →
      ∃ stored, after.rotKeys.lookup index = some stored ∧ stored.resident

/-- This is the promise of the eviction loop. -/
structure EvictionContract (budget incoming : UInt64) (keys : KeyPrecomputations) : Prop where
  returns : ∃ fuel result, keys.evictToFit fuel budget incoming = some result
  outcome : ∀ fuel result, keys.evictToFit fuel budget incoming = some result →
    result.Settled budget incoming
  keeps : ∀ state, Loop.Leads (evictRound budget incoming) keys state → KeepsUnevictable keys state

/-- This is the promise of a key request. -/
structure RequestContract (index : Int) (budget : UInt64) (mayEvict : Bool)
    (keys : KeyPrecomputations) : Prop where
  returns : ∃ fuel result, keys.ensureResident fuel index budget mayEvict = some result
  keeps : ∀ fuel result, keys.ensureResident fuel index budget mayEvict = some result →
    KeepsUnevictable keys result.1

variable {keys : KeyPrecomputations} {budget incoming : UInt64}

/-- The victim is the first index of the scan order. -/
theorem evictVictim_eq_head (keys : KeyPrecomputations) :
    keys.evictVictim = keys.evictionOrder.head? := by
  rw [evictVictim, evictionOrder, recency, ← List.map_reverse, List.head?_filter, List.find?_map]
  rfl

/-- An offload of the victim keeps the pins and the other keys that may not leave. -/
theorem offloadKey_keeps (keys : KeyPrecomputations) (index : Int) :
    (keys.offloadKey index).1.pinned = keys.pinned ∧
      ∀ other key, keys.rotKeys.lookup other = some key →
        other ≠ index ∨ key.hasSnapshot = false →
          (keys.offloadKey index).1.rotKeys.lookup other = some key := by
  rcases offloadKey_cases keys index with same | ⟨stored, present, _, snapshot, moved⟩
  · rw [same]
    exact ⟨rfl, fun _ _ found _ => found⟩
  · rw [moved]
    refine ⟨by simp, ?_⟩
    intro other key found stays
    have different : other ≠ index := by
      rintro rfl
      rw [present] at found
      cases found
      simp [snapshot] at stays
    simpa [AList.lookup_insert_ne different] using found

/-- One round keeps the pins, every pinned key and every key without a snapshot. -/
theorem evictRound_keeps {next : KeyPrecomputations}
    (moved : keys.evictRound budget incoming = some next) :
    next.pinned = keys.pinned ∧
      ∀ index key, keys.rotKeys.lookup index = some key →
        index ∈ keys.pinned ∨ key.hasSnapshot = false → next.rotKeys.lookup index = some key := by
  obtain ⟨victim, found, rfl⟩ := evictRound_cases moved
  obtain ⟨pins, others⟩ := offloadKey_keeps keys victim
  refine ⟨pins, ?_⟩
  intro index key present stays
  apply others index key present
  rcases stays with pinned | unsaved
  · left
    rintro rfl
    rw [evictVictim_eq_head] at found
    have listed := List.mem_of_mem_head? found
    have free := (List.mem_filter.mp listed).2
    simp [pinned] at free
  · exact Or.inr unsaved

/-- No number of rounds removes a pinned key or a key without a snapshot. -/
theorem leads_keeps {state : KeyPrecomputations}
    (path : Loop.Leads (evictRound budget incoming) keys state) :
    state.pinned = keys.pinned ∧
      ∀ index key, keys.rotKeys.lookup index = some key →
        index ∈ keys.pinned ∨ key.hasSnapshot = false → state.rotKeys.lookup index = some key := by
  refine path.invariant (fun later => later.pinned = keys.pinned ∧
    ∀ index key, keys.rotKeys.lookup index = some key →
      index ∈ keys.pinned ∨ key.hasSnapshot = false → later.rotKeys.lookup index = some key) ?_ ?_
  · rintro before after moved ⟨pins, held⟩
    obtain ⟨samePins, next⟩ := evictRound_keeps moved
    refine ⟨samePins.trans pins, ?_⟩
    intro index key present stays
    exact next index key (held index key present stays) (pins ▸ stays)
  · exact ⟨rfl, fun _ _ present _ => present⟩

theorem leads_keepsUnevictable {state : KeyPrecomputations}
    (path : Loop.Leads (evictRound budget incoming) keys state) : KeepsUnevictable keys state :=
  fun index key present resident stays =>
    ⟨key, (leads_keeps path).2 index key present stays, resident⟩

/-- A stopped loop fits the budget or has only pinned indexes left. -/
theorem evictRound_stop (stop : keys.evictRound budget incoming = none) :
    keys.residentBytes + incoming ≤ budget ∨ ∀ index ∈ keys.recency, index ∈ keys.pinned := by
  unfold evictRound at stop
  split at stop
  case isFalse fits => exact Or.inl (by simpa using fits)
  case isTrue =>
    right
    intro index listed
    have none := Option.map_eq_none_iff.mp stop
    rw [evictVictim_eq_head, List.head?_eq_none_iff] at none
    by_contra free
    have member : index ∈ keys.evictionOrder :=
      List.mem_filter.mpr ⟨List.mem_reverse.mpr listed, by simpa using free⟩
    rw [none] at member
    cases member

/-- A returned state keeps the outcome of the contract. -/
theorem evictToFit_outcome {fuel : Nat} {result : KeyPrecomputations}
    (ran : keys.evictToFit fuel budget incoming = some result) : result.Settled budget incoming := by
  rw [evictToFit_eq_run] at ran
  rcases evictRound_stop (Loop.run_result ran).2 with fits | pinned
  · exact Or.inl fits
  · exact Or.inr fun index listed => Or.inl (pinned index listed)

/-- The whole contract reduces to termination. -/
theorem evictionContract_iff_returns :
    EvictionContract budget incoming keys ↔ Loop.Returns (evictRound budget incoming) keys := by
  constructor
  · rintro ⟨⟨fuel, result, ran⟩, _, _⟩
    exact ⟨fuel, result, (evictToFit_eq_run fuel budget incoming keys).symm.trans ran⟩
  · rintro ⟨fuel, result, ran⟩
    exact {
      returns := ⟨fuel, result, (evictToFit_eq_run fuel budget incoming keys).trans ran⟩
      outcome := fun _ _ returned => evictToFit_outcome returned
      keeps := fun _ path => leads_keepsUnevictable path }

/-- Every index of the scan order has a resident key. -/
theorem evictionOrder_resident (wf : keys.LruWf) {index : Int} (listed : index ∈ keys.evictionOrder) :
    ∃ key, keys.rotKeys.lookup index = some key ∧ key.resident :=
  wf.residentOnly index (List.mem_reverse.mp (List.mem_of_mem_filter listed))

/-- No candidate means no victim. -/
theorem evictionOrder_eq_nil (wf : keys.LruWf) (none : keys.candidates = []) :
    keys.evictionOrder = [] := by
  cases order : keys.evictionOrder with
  | nil => rfl
  | cons index rest =>
      obtain ⟨key, present, _⟩ := evictionOrder_resident wf (order ▸ List.mem_cons_self)
      simp [candidates, order, present] at none

variable {key : KeySwitchingKey} {rest : List KeySwitchingKey}

/-- The first candidate belongs to the first index of the scan order. -/
theorem evictionOrder_eq_cons (wf : keys.LruWf) (first : keys.candidates = key :: rest) :
    ∃ index order, keys.evictionOrder = index :: order ∧ keys.rotKeys.lookup index = some key ∧
      key.resident ∧ order.filterMap keys.rotKeys.lookup = rest := by
  cases listed : keys.evictionOrder with
  | nil => rw [candidates, listed] at first; cases first
  | cons index order =>
      obtain ⟨stored, present, resident⟩ := evictionOrder_resident wf (listed ▸ List.mem_cons_self)
      simp only [candidates, listed, List.filterMap_cons, present] at first
      cases first
      exact ⟨index, order, rfl, present, resident, rfl⟩

/-- The scan order has no duplicates. -/
theorem evictionOrder_nodup (wf : keys.LruWf) : keys.evictionOrder.Nodup :=
  (List.nodup_reverse.mpr wf.indexNodup).filter _

/-- A round offloads the first candidate when it has a snapshot. -/
theorem evictRound_ready (wf : keys.LruWf) (first : keys.candidates = key :: rest)
    (snapshot : key.hasSnapshot) (exceeds : keys.residentBytes + incoming > budget) :
    ∃ next, keys.evictRound budget incoming = some next ∧ next.LruWf ∧ next.candidates = rest ∧
      next.residentBytes = keys.residentBytes - key.limbBytes := by
  obtain ⟨index, order, listed, present, resident, tail⟩ := evictionOrder_eq_cons wf first
  have victim : keys.evictVictim = some index := by rw [evictVictim_eq_head, listed, List.head?_cons]
  refine ⟨(keys.offloadKey index).1, ?_, wf.offloadKey index, ?_, ?_⟩
  · rw [evictRound, if_pos exceeds, victim, Option.map_some]
  · have distinct := evictionOrder_nodup wf
    rw [listed] at distinct
    have absent := (List.nodup_cons.mp distinct).1
    have scan : (keys.offloadKey index).1.evictionOrder = order := by
      rw [offloadKey_ready present resident snapshot]
      have shape : ({ keys with
          rotKeys := keys.rotKeys.insert index { key with resident := false }
          residentBytes := keys.residentBytes - key.limbBytes }.forgetLru index).recency =
          (keys.forgetLru index).recency := by
        unfold forgetLru
        dsimp only
        split <;> rfl
      have swap : (keys.recency.reverse.filter (· ≠ index)).filter (· ∉ keys.pinned) =
          keys.evictionOrder.filter (· ≠ index) := by
        rw [evictionOrder, List.filter_filter, List.filter_filter]
        apply List.filter_congr
        intro other _
        rw [Bool.and_comm]
      rw [evictionOrder, shape, forgetLru_recency wf, forgetLru_pinned, ← List.filter_reverse,
        swap, listed, List.filter_cons_of_neg (by simp)]
      apply List.filter_eq_self.mpr
      intro other member
      simpa using fun same : other = index => absent (same ▸ member)
    rw [candidates, scan, ← tail]
    apply List.filterMap_congr
    intro other member
    have different : other ≠ index := fun same => absent (same ▸ member)
    rw [offloadKey_ready present resident snapshot]
    simp [AList.lookup_insert_ne different]
  · rw [offloadKey_ready present resident snapshot]
    simp

/-- A round changes nothing when the first candidate has no snapshot. -/
theorem evictRound_stuck (wf : keys.LruWf) (first : keys.candidates = key :: rest)
    (snapshot : key.hasSnapshot = false) (exceeds : keys.residentBytes + incoming > budget) :
    keys.evictRound budget incoming = some keys := by
  obtain ⟨index, order, listed, present, resident, _⟩ := evictionOrder_eq_cons wf first
  rw [evictRound, if_pos exceeds, evictVictim_eq_head, listed, List.head?_cons, Option.map_some,
    offloadKey_unready present snapshot]

/-- The condition holds at once below the budget. -/
theorem canFit_of_le (fits : keys.residentBytes + incoming ≤ budget) : CanFit budget incoming keys :=
  Or.inr ⟨0, Nat.zero_le _, by simpa [bytesWithout] using fits⟩

/-- Above the budget, a first candidate with a snapshot passes the condition on. -/
theorem canFit_iff_next {next : KeyPrecomputations} (first : keys.candidates = key :: rest)
    (snapshot : key.hasSnapshot) (exceeds : keys.residentBytes + incoming > budget)
    (tail : next.candidates = rest) (bytes : next.residentBytes = keys.residentBytes - key.limbBytes) :
    CanFit budget incoming keys ↔ CanFit budget incoming next := by
  simp only [CanFit, first, tail, bytes, List.takeWhile_cons_of_pos snapshot, List.cons.injEq,
    true_and, List.length_cons]
  apply or_congr_right
  constructor
  · rintro ⟨count, inside, fits⟩
    cases count with
    | zero =>
        rw [List.take_zero, bytesWithout, List.foldl_nil] at fits
        exact absurd fits (by simpa using exceeds)
    | succ count =>
        rw [List.take_succ_cons, bytesWithout, List.foldl_cons] at fits
        exact ⟨count, by omega, fits⟩
  · rintro ⟨count, inside, fits⟩
    refine ⟨count + 1, by omega, ?_⟩
    rw [List.take_succ_cons, bytesWithout, List.foldl_cons]
    exact fits

/-- Above the budget, a first candidate without a snapshot refutes the condition. -/
theorem not_canFit_of_stuck (first : keys.candidates = key :: rest)
    (snapshot : key.hasSnapshot = false)
    (exceeds : keys.residentBytes + incoming > budget) : ¬CanFit budget incoming keys := by
  simp only [CanFit, first, List.takeWhile_cons_of_neg (by simp [snapshot] : ¬key.hasSnapshot = true)]
  rintro (whole | ⟨count, _, fits⟩)
  · cases whole
  · rw [List.take_nil, bytesWithout, List.foldl_nil] at fits
    exact absurd fits (by simpa using exceeds)

/-- The loop returns exactly when the oldest candidates can free enough bytes. -/
theorem returns_iff_canFit (wf : keys.LruWf) :
    Loop.Returns (evictRound budget incoming) keys ↔ CanFit budget incoming keys := by
  generalize count : keys.candidates = listed
  induction listed generalizing keys with
  | nil =>
      refine iff_of_true ?_ (Or.inl (by simp [count]))
      apply Loop.returns_of_stop
      rw [evictRound, evictVictim_eq_head, evictionOrder_eq_nil wf count]
      split <;> rfl
  | cons key rest ih =>
      by_cases fits : keys.residentBytes + incoming ≤ budget
      · refine iff_of_true ?_ (canFit_of_le fits)
        apply Loop.returns_of_stop
        rw [evictRound, if_neg (by simpa using fits)]
      · have exceeds : keys.residentBytes + incoming > budget := by simpa using fits
        cases snapshot : key.hasSnapshot with
        | false =>
            exact iff_of_false (Loop.not_returns_of_fixed (evictRound_stuck wf count snapshot exceeds))
              (not_canFit_of_stuck count snapshot exceeds)
        | true =>
            obtain ⟨next, moved, nextWf, tail, bytes⟩ := evictRound_ready wf count snapshot exceeds
            rw [Loop.returns_iff_next moved, ih nextWf tail]
            exact (canFit_iff_next count snapshot exceeds tail bytes).symm

/-- The eviction loop returns exactly under its condition. -/
theorem evictToFit_returns_iff (wf : keys.LruWf) :
    (∃ fuel result, keys.evictToFit fuel budget incoming = some result) ↔
      CanFit budget incoming keys := by
  rw [← returns_iff_canFit wf]
  constructor
  · rintro ⟨fuel, result, ran⟩
    exact ⟨fuel, result, (evictToFit_eq_run fuel budget incoming keys).symm.trans ran⟩
  · rintro ⟨fuel, result, ran⟩
    exact ⟨fuel, result, (evictToFit_eq_run fuel budget incoming keys).trans ran⟩

/-- A request returns when it needs no eviction or when its eviction returns. -/
theorem ensureResident_returns_iff (wf : keys.LruWf) (index : Int) (mayEvict : Bool) :
    (∃ fuel result, keys.ensureResident fuel index budget mayEvict = some result) ↔
      ∀ key, keys.rotKeys.lookup index = some key → key.resident = false → mayEvict →
        CanFit budget key.limbBytes keys := by
  cases present : keys.rotKeys.lookup index with
  | none => simp [ensureResident, present]
  | some key =>
      cases resident : key.resident with
      | true => simp [ensureResident, present, resident]
      | false =>
          cases mayEvict with
          | false => simp [ensureResident, present, resident]
          | true =>
              rw [show (∀ other, some key = some other → other.resident = false → true = true →
                  CanFit budget other.limbBytes keys) ↔ CanFit budget key.limbBytes keys by
                simp [resident], ← evictToFit_returns_iff wf]
              simp only [ensureResident, present, resident, Bool.false_eq_true, if_false, if_true,
                Option.map_eq_some_iff]
              constructor
              · rintro ⟨fuel, result, fitted, ran, _⟩
                exact ⟨fuel, fitted, ran⟩
              · rintro ⟨fuel, fitted, ran⟩
                exact ⟨fuel, _, fitted, ran, rfl⟩

/-- A request keeps every resident key that may not leave. -/
theorem ensureResident_keepsUnevictable {fuel : Nat} {index : Int} {mayEvict : Bool}
    {next : KeyPrecomputations} {outcome : Except CacheError KeySwitchingKey}
    (ran : keys.ensureResident fuel index budget mayEvict = some (next, outcome)) :
    KeepsUnevictable keys next := by
  rcases ensureResident_cases ran with same | ⟨_, _, _, touched⟩ |
    ⟨key, fitted, _, _, source, loads⟩
  · rw [same]
    exact fun other stored present resident _ => ⟨stored, present, resident⟩
  · rw [touched]
    exact fun other stored present resident _ => ⟨stored, by simpa using present, resident⟩
  · have evicted : KeepsUnevictable keys fitted := by
      rcases source with rfl | ran
      · exact fun other stored present resident _ => ⟨stored, present, resident⟩
      · rw [evictToFit_eq_run] at ran
        exact leads_keepsUnevictable (Loop.run_result ran).1
    rcases loads with same | ⟨_, loaded⟩
    · rw [same]
      exact evicted
    · rw [loaded]
      intro other stored present resident stays
      by_cases same : other = index
      · subst same
        exact ⟨_, by rw [touch_rotKeys, AList.lookup_insert], rfl⟩
      · obtain ⟨kept, found, stillResident⟩ := evicted other stored present resident stays
        exact ⟨kept, by rw [touch_rotKeys, AList.lookup_insert_ne same, found], stillResident⟩

end KeyPrecomputations

/-- This is the promise of a budget change. -/
structure BudgetContract (bytes : UInt64) (context : ContextData) : Prop where
  returns : ∃ fuel after, context.setRotationKeyCache fuel bytes = some after
  outcome : ∀ fuel after, context.setRotationKeyCache fuel bytes = some after →
    ∀ keyID keys, after.keys.lookup keyID = some keys → keys.Settled bytes 0
  keeps : ∀ fuel after, context.setRotationKeyCache fuel bytes = some after →
    ∀ keyID, (context.keySet keyID).KeepsUnevictable (after.keySet keyID)

/-- A budget change returns when the eviction loop returns on every key set. -/
theorem setRotationKeyCache_returns_iff {context : ContextData} {bytes : UInt64}
    (wf : ∀ keyID keys, context.keys.lookup keyID = some keys → keys.LruWf) :
    (∃ fuel after, context.setRotationKeyCache fuel bytes = some after) ↔
      ∀ keyID keys, context.keys.lookup keyID = some keys → keys.CanFit bytes 0 := by
  have listed (property : KeyPrecomputations → Prop) :
      (∀ keys ∈ context.keys.entries.map Sigma.snd, property keys) ↔
        ∀ keyID keys, context.keys.lookup keyID = some keys → property keys := by
    constructor
    · intro all keyID keys present
      exact all keys (List.mem_map_of_mem ((KeyedMap.mem_entries_iff _ keyID keys).mpr present))
    · intro all keys member
      obtain ⟨⟨keyID, stored⟩, entry, rfl⟩ := List.mem_map.mp member
      exact all keyID stored ((KeyedMap.mem_entries_iff _ keyID stored).mp entry)
  have reduced (fuel : Nat) : (∃ after, context.setRotationKeyCache fuel bytes = some after) ↔
      ∀ keys ∈ context.keys.entries.map Sigma.snd,
        (Loop.run (KeyPrecomputations.evictRound bytes 0) fuel keys).isSome := by
    rw [← Option.isSome_iff_exists, ContextData.setRotationKeyCache, Option.isSome_map,
      KeyedMap.traverse_isSome_iff, listed]
    simp only [KeyPrecomputations.enforceBudget, KeyPrecomputations.evictToFit_eq_run]
  rw [exists_congr reduced, Loop.returns_all_iff, listed]
  exact forall_congr' fun keyID => forall_congr' fun keys => imp_congr_right fun present =>
    KeyPrecomputations.returns_iff_canFit (wf keyID keys present)

/-- A budget change runs the eviction loop on each stored key set. -/
theorem setRotationKeyCache_keySet {context after : ContextData} {fuel : Nat} {bytes : UInt64}
    (ran : context.setRotationKeyCache fuel bytes = some after) (keyID : KeyHash) :
    (context.keys.lookup keyID = none ∧ after.keys.lookup keyID = none) ∨
      ∃ old new, context.keys.lookup keyID = some old ∧ after.keys.lookup keyID = some new ∧
        old.evictToFit fuel bytes 0 = some new := by
  obtain ⟨keys, traversed, rfl⟩ := Option.map_eq_some_iff.mp ran
  exact KeyedMap.traverse_lookup_cases traversed keyID

/-- A budget change settles every key set and keeps the keys that may not leave. -/
theorem setRotationKeyCache_settles {context after : ContextData} {fuel : Nat} {bytes : UInt64}
    (ran : context.setRotationKeyCache fuel bytes = some after) (keyID : KeyHash) :
    (∀ keys, after.keys.lookup keyID = some keys → keys.Settled bytes 0) ∧
      (context.keySet keyID).KeepsUnevictable (after.keySet keyID) := by
  rcases setRotationKeyCache_keySet ran keyID with ⟨absent, stillAbsent⟩ |
    ⟨old, new, present, stored, evicted⟩
  · refine ⟨fun keys found => absurd (stillAbsent.symm.trans found) (by simp), ?_⟩
    rw [ContextData.keySet, ContextData.keySet, absent, stillAbsent]
    exact fun other key found resident _ => ⟨key, found, resident⟩
  · rw [ContextData.keySet_of_lookup present, ContextData.keySet_of_lookup stored]
    constructor
    · intro keys found
      rw [stored] at found
      cases found
      exact KeyPrecomputations.evictToFit_outcome evicted
    · rw [KeyPrecomputations.evictToFit_eq_run] at evicted
      exact KeyPrecomputations.leads_keepsUnevictable (Loop.run_result evicted).1

/-- In a reachable context the loop and its callers keep their promises exactly when no key
without a snapshot blocks the scan before enough bytes are free. -/
theorem eviction_contract_iff (context : ContextData) (reached : Reachable context) :
    (∀ keyID keys, context.keys.lookup keyID = some keys →
      (∀ budget incoming, keys.EvictionContract budget incoming ↔ keys.CanFit budget incoming) ∧
      (∀ index budget mayEvict, keys.RequestContract index budget mayEvict ↔
        ∀ key, keys.rotKeys.lookup index = some key → key.resident = false → mayEvict →
          keys.CanFit budget key.limbBytes)) ∧
    ∀ bytes, BudgetContract bytes context ↔
      ∀ keyID keys, context.keys.lookup keyID = some keys → keys.CanFit bytes 0 := by
  have wf (keyID : KeyHash) (keys : KeyPrecomputations)
      (present : context.keys.lookup keyID = some keys) : keys.LruWf :=
    ContextData.keySet_of_lookup present ▸ reached.lruWf keyID
  refine ⟨?_, ?_⟩
  · intro keyID keys present
    refine ⟨fun budget incoming => ?_, fun index budget mayEvict => ?_⟩
    · rw [KeyPrecomputations.evictionContract_iff_returns]
      exact KeyPrecomputations.returns_iff_canFit (wf keyID keys present)
    · rw [← KeyPrecomputations.ensureResident_returns_iff (wf keyID keys present)]
      exact ⟨fun contract => contract.returns, fun returns =>
        ⟨returns, fun _ _ ran => KeyPrecomputations.ensureResident_keepsUnevictable ran⟩⟩
  · intro bytes
    rw [← setRotationKeyCache_returns_iff wf]
    exact ⟨fun contract => contract.returns, fun returns =>
      ⟨returns, fun _ _ ran keyID => (setRotationKeyCache_settles ran keyID).1,
        fun _ _ ran keyID => (setRotationKeyCache_settles ran keyID).2⟩⟩

/-- This key is resident and has no host snapshot. -/
def eagerKey : KeySwitchingKey := { keyID := "key", resident := true, limbBytes := 8 }

/-- This context holds one key without a snapshot. -/
def eagerContext : ContextData := ({ logN := 2 } : ContextData).addRotationKey 1 eagerKey

/-- This context has used its key once, so the key is listed. -/
def usedContext : ContextData :=
  ((eagerContext.getRotationKey 0 1 "key").map Prod.fst).getD eagerContext

theorem usedContext_reachable : Reachable usedContext := by
  have added : Call.Step (.addRotationKey 1 eagerKey) { logN := 2 } eagerContext := ⟨0, rfl⟩
  have used : Call.Step (.getRotationKey 1 "key") eagerContext usedContext := ⟨0, rfl⟩
  exact ⟨2, (StateMachine.Run.start.next trivial added).next trivial used⟩

/-- This key has a host snapshot and waits there for its first use. -/
def lazyKey : KeySwitchingKey := { keyID := "key", hasSnapshot := true, limbBytes := 8 }

/-- This cache has room for two of its three keys. -/
def lazyContext : ContextData :=
  ({ logN := 3, rotationKeyCacheBytes := 20 } : ContextData).addRotationKey 1 lazyKey
    |>.addRotationKey 2 lazyKey |>.addRotationKey 3 lazyKey

/-- The first key is loaded. -/
def loadedContext : ContextData :=
  ((lazyContext.getRotationKey 1 1 "key").map Prod.fst).getD lazyContext

/-- The second key is loaded too. -/
def crowdedContext : ContextData :=
  ((loadedContext.getRotationKey 1 2 "key").map Prod.fst).getD loadedContext

/-- The first of the two loaded keys is pinned. -/
def pinnedContext : ContextData := crowdedContext.pinRotationKey 1 true "key"

/-- A guard that admits the additions admits the run to the pinned context. -/
theorem pinnedContext_run {guard : Call → ContextData → Prop}
    (adds : ∀ index (context : ContextData),
      (context.keySet "key").rotKeys.lookup (context.liftIndex index) = none →
        guard (.addRotationKey index lazyKey) context)
    (limits : ∀ bytes context, guard (.setRotationKeyCache bytes) context)
    (gets : ∀ index context, guard (.getRotationKey index "key") context)
    (pins : ∀ index context, guard (.pinRotationKey index true "key") context) :
    StateMachine.Run Call.Step guard { logN := 3 } pinnedContext := by
  let limited : ContextData := { logN := 3, rotationKeyCacheBytes := 20 }
  let first := limited.addRotationKey 1 lazyKey
  let second := first.addRotationKey 2 lazyKey
  have limit : Call.Step (.setRotationKeyCache 20) { logN := 3 } limited := ⟨0, rfl⟩
  have addFirst : Call.Step (.addRotationKey 1 lazyKey) limited first := ⟨0, rfl⟩
  have addSecond : Call.Step (.addRotationKey 2 lazyKey) first second := ⟨0, rfl⟩
  have addThird : Call.Step (.addRotationKey 3 lazyKey) second lazyContext := ⟨0, rfl⟩
  have getFirst : Call.Step (.getRotationKey 1 "key") lazyContext loadedContext := ⟨1, rfl⟩
  have getSecond : Call.Step (.getRotationKey 2 "key") loadedContext crowdedContext := ⟨1, rfl⟩
  have pinFirst : Call.Step (.pinRotationKey 1 true "key") crowdedContext pinnedContext := ⟨0, rfl⟩
  refine .next ?_ (pins 1 _) pinFirst
  refine .next ?_ (gets 2 _) getSecond
  refine .next ?_ (gets 1 _) getFirst
  refine .next ?_ (adds 3 _ rfl) addThird
  refine .next ?_ (adds 2 _ rfl) addSecond
  refine .next ?_ (adds 1 _ rfl) addFirst
  exact .next .start (limits 20 _) limit

/-- One of two listed keys is pinned, so a request for a third key evicts the other one. -/
theorem eviction_contract_iff_pinnedContext :
    (pinnedContext.keySet "key").RequestContract 3 20 true ∧ BudgetContract 8 pinnedContext := by
  have reached : Reachable pinnedContext := ⟨3, pinnedContext_run (fun _ _ _ => trivial)
    (fun _ _ => trivial) (fun _ _ => trivial) (fun _ _ => trivial)⟩
  have contract := eviction_contract_iff pinnedContext reached
  refine ⟨((contract.1 "key" _ rfl).2 3 20 true).mpr ?_, (contract.2 8).mpr ?_⟩
  · intro key stored absent may
    exact Or.inl rfl
  · intro keyID keys present
    have listed : (⟨keyID, keys⟩ : Sigma fun _ : KeyHash => KeyPrecomputations) ∈
        [⟨"key", pinnedContext.keySet "key"⟩] :=
      (KeyedMap.mem_entries_iff pinnedContext.keys keyID keys).mpr present
    cases List.mem_singleton.mp listed
    exact Or.inl rfl

/-- One key without a snapshot makes the loop run forever. -/
theorem eviction_loops_forever :
    ¬∀ context, Reachable context → ∀ keyID keys, context.keys.lookup keyID = some keys →
      ∀ budget incoming, keys.EvictionContract budget incoming := by
  intro all
  have contract := all usedContext usedContext_reachable "key" (usedContext.keySet "key") rfl 0 0
  have fixed : (usedContext.keySet "key").evictRound 0 0 = some (usedContext.keySet "key") := rfl
  exact Loop.not_returns_of_fixed fixed
    (KeyPrecomputations.evictionContract_iff_returns.mp contract)

end Fideslib.RotationKeys
