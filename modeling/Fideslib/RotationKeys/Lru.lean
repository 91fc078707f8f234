/-
This file keeps the recency list and the position map of a key set consistent.
-/

import Fideslib.Library.Loop
import Fideslib.RotationKeys.Cache

namespace Fideslib.RotationKeys
namespace KeyPrecomputations

/-- The recency list names the indexes from the newest to the oldest. -/
def recency (keys : KeyPrecomputations) : List Int := keys.lruOrder.map LruNode.index

/-- The position map inverts the recency list, and only resident keys are listed. -/
structure LruWf (keys : KeyPrecomputations) : Prop where
  indexNodup : keys.recency.Nodup
  addressNodup : (keys.lruOrder.map LruNode.address).Nodup
  addressFresh : ∀ node ∈ keys.lruOrder, node.address < keys.nextAddress
  positions : ∀ index address, keys.lruPos.lookup index = some address ↔
    (⟨address, index⟩ : LruNode) ∈ keys.lruOrder
  residentOnly : ∀ index ∈ keys.recency, ∃ key, keys.rotKeys.lookup index = some key ∧ key.resident

variable {keys : KeyPrecomputations}

/-- An index is listed exactly when the map stores its position. -/
theorem mem_recency_iff (wf : keys.LruWf) (index : Int) :
    index ∈ keys.recency ↔ ∃ address, keys.lruPos.lookup index = some address := by
  simp only [recency, List.mem_map, wf.positions]
  constructor
  · rintro ⟨⟨address, _⟩, member, rfl⟩
    exact ⟨address, member⟩
  · rintro ⟨address, member⟩
    exact ⟨_, member, rfl⟩

/-- Two listed nodes with one address are one node. -/
theorem node_eq_of_address (wf : keys.LruWf) {first second : LruNode}
    (firstListed : first ∈ keys.lruOrder) (secondListed : second ∈ keys.lruOrder)
    (same : first.address = second.address) : first = second :=
  List.inj_on_of_nodup_map wf.addressNodup firstListed secondListed same

/-- Two listed nodes with one index are one node. -/
theorem node_eq_of_index (wf : keys.LruWf) {first second : LruNode}
    (firstListed : first ∈ keys.lruOrder) (secondListed : second ∈ keys.lruOrder)
    (same : first.index = second.index) : first = second :=
  List.inj_on_of_nodup_map wf.indexNodup firstListed secondListed same

/-- A stored address names exactly the node of its index. -/
theorem address_iff_index (wf : keys.LruWf) {index : Int} {address : Nat}
    (stored : keys.lruPos.lookup index = some address) {node : LruNode}
    (listed : node ∈ keys.lruOrder) : node.address = address ↔ node.index = index := by
  have target := (wf.positions index address).mp stored
  constructor
  · intro same
    exact congrArg LruNode.index (node_eq_of_address wf listed target same)
  · intro same
    exact congrArg LruNode.address (node_eq_of_index wf listed target same)

/-- A filter by a stored address removes the index from the recency list. -/
theorem recency_filter_ne (wf : keys.LruWf) {index : Int} {address : Nat}
    (stored : keys.lruPos.lookup index = some address) :
    (keys.lruOrder.filter fun node => ¬node.address = address).map LruNode.index =
      keys.recency.filter (· ≠ index) := by
  rw [recency, List.filter_map]
  apply congrArg (List.map LruNode.index)
  apply List.filter_congr
  intro node listed
  simp [address_iff_index wf stored listed]

/-- A filter by a stored address keeps exactly one node. -/
theorem order_filter_eq (wf : keys.LruWf) {index : Int} {address : Nat}
    (stored : keys.lruPos.lookup index = some address) :
    (keys.lruOrder.filter fun node => node.address = address) = [⟨address, index⟩] := by
  have target := (wf.positions index address).mp stored
  have single : (keys.lruOrder.filter fun node => node.address = address) =
      keys.lruOrder.filter (· == ⟨address, index⟩) := by
    apply List.filter_congr
    intro node listed
    by_cases same : node.address = address
    · simp [node_eq_of_address wf listed target same]
    · have other : node ≠ ⟨address, index⟩ := fun equal => same (congrArg LruNode.address equal)
      simp [same, other]
  have distinct : keys.lruOrder.Nodup := wf.addressNodup.of_map _
  rw [single, List.filter_beq, List.count_eq_one_of_mem distinct target, List.replicate_one]

/-- A forgotten index leaves the recency list. -/
theorem forgetLru_recency (wf : keys.LruWf) (index : Int) :
    (keys.forgetLru index).recency = keys.recency.filter (· ≠ index) := by
  unfold forgetLru
  split
  case h_1 address stored => exact recency_filter_ne wf stored
  case h_2 absent =>
    have unlisted : ∀ other ∈ keys.recency, other ≠ index := by
      rintro other listed rfl
      obtain ⟨address, stored⟩ := (mem_recency_iff wf other).mp listed
      rw [absent] at stored
      cases stored
    exact (List.filter_eq_self.mpr fun other listed => by simpa using unlisted other listed).symm

/-- A touched index moves to the front of the recency list. -/
theorem touch_recency (wf : keys.LruWf) (index : Int) :
    (keys.touch index).recency = index :: keys.recency.filter (· ≠ index) := by
  unfold touch
  split
  case h_1 address stored =>
    simp only [recency, order_filter_eq wf stored, List.singleton_append, List.map_cons]
    exact congrArg (index :: ·) (recency_filter_ne wf stored)
  case h_2 absent =>
    have unlisted : index ∉ keys.recency := by
      intro listed
      obtain ⟨address, stored⟩ := (mem_recency_iff wf index).mp listed
      rw [absent] at stored
      cases stored
    have whole : keys.recency.filter (· ≠ index) = keys.recency := by
      apply List.filter_eq_self.mpr
      intro other listed
      simpa using fun same : other = index => unlisted (same ▸ listed)
    rw [whole]
    rfl

@[simp] theorem forgetLru_rotKeys (index : Int) : (keys.forgetLru index).rotKeys = keys.rotKeys := by
  unfold forgetLru
  split <;> rfl

@[simp] theorem forgetLru_residentBytes (index : Int) :
    (keys.forgetLru index).residentBytes = keys.residentBytes := by
  unfold forgetLru
  split <;> rfl

@[simp] theorem forgetLru_pinned (index : Int) : (keys.forgetLru index).pinned = keys.pinned := by
  unfold forgetLru
  split <;> rfl

@[simp] theorem touch_rotKeys (index : Int) : (keys.touch index).rotKeys = keys.rotKeys := by
  unfold touch
  split <;> rfl

@[simp] theorem touch_residentBytes (index : Int) :
    (keys.touch index).residentBytes = keys.residentBytes := by
  unfold touch
  split <;> rfl

theorem lruWf_empty : ({} : KeyPrecomputations).LruWf where
  indexNodup := List.nodup_nil
  addressNodup := List.nodup_nil
  addressFresh := by simp
  positions := by simp
  residentOnly := by simp [recency]

/-- A change of the stored keys keeps the list when listed keys stay resident. -/
theorem LruWf.change_keys (wf : keys.LruWf) (rotKeys : AList fun _ : Int => KeySwitchingKey)
    (bytes : UInt64) (pinned : Finset Int)
    (resident : ∀ index ∈ keys.recency, ∃ key, rotKeys.lookup index = some key ∧ key.resident) :
    ({ keys with rotKeys := rotKeys, residentBytes := bytes, pinned := pinned } :
      KeyPrecomputations).LruWf where
  indexNodup := wf.indexNodup
  addressNodup := wf.addressNodup
  addressFresh := wf.addressFresh
  positions := wf.positions
  residentOnly := resident

/-- The list part of the invariant survives a forgotten index. -/
theorem LruWf.forgetLru (wf : keys.LruWf) (index : Int) : (keys.forgetLru index).LruWf := by
  have listed : (keys.forgetLru index).recency.Sublist keys.recency := by
    rw [forgetLru_recency wf]
    exact List.filter_sublist
  refine ⟨wf.indexNodup.sublist listed, ?_, ?_, ?_, ?_⟩
  · unfold KeyPrecomputations.forgetLru
    split
    · exact wf.addressNodup.sublist (List.filter_sublist.map _)
    · exact wf.addressNodup
  · unfold KeyPrecomputations.forgetLru
    split
    · exact fun node member => wf.addressFresh node (List.mem_of_mem_filter member)
    · exact wf.addressFresh
  · intro other address
    unfold KeyPrecomputations.forgetLru
    split
    case h_1 dropped stored =>
      by_cases same : other = index
      · subst same
        have gone : (⟨address, other⟩ : LruNode) ∈ keys.lruOrder → address = dropped := fun member =>
          (address_iff_index wf stored member).mpr rfl
        simpa [AList.lookup_erase] using gone
      · have kept : (⟨address, other⟩ : LruNode) ∈ keys.lruOrder → address ≠ dropped :=
          fun member equal => same ((address_iff_index wf stored member).mp equal)
        simpa [AList.lookup_erase_ne same, wf.positions] using kept
    case h_2 => exact wf.positions other address
  · intro other member
    rw [forgetLru_rotKeys]
    exact wf.residentOnly other (listed.subset member)

/-- The list part of the invariant survives a touch of a resident key. -/
theorem LruWf.touch (wf : keys.LruWf) {index : Int} {key : KeySwitchingKey}
    (present : keys.rotKeys.lookup index = some key) (resident : key.resident) :
    (keys.touch index).LruWf := by
  refine ⟨?_, ?_, ?_, ?_, ?_⟩
  · rw [touch_recency wf]
    exact List.nodup_cons.mpr ⟨by simp, wf.indexNodup.filter _⟩
  · unfold KeyPrecomputations.touch
    split
    case h_1 address stored =>
      rw [order_filter_eq wf stored]
      have rest : (List.map LruNode.address (keys.lruOrder.filter fun node =>
          ¬node.address = address)).Nodup := wf.addressNodup.sublist (List.filter_sublist.map _)
      have absent : address ∉ List.map LruNode.address (keys.lruOrder.filter fun node =>
          ¬node.address = address) := by simp
      exact List.nodup_cons.mpr ⟨absent, rest⟩
    case h_2 =>
      have absent : keys.nextAddress ∉ keys.lruOrder.map LruNode.address := by
        intro member
        obtain ⟨node, listed, same⟩ := List.mem_map.mp member
        have below := wf.addressFresh node listed
        omega
      exact List.nodup_cons.mpr ⟨absent, wf.addressNodup⟩
  · unfold KeyPrecomputations.touch
    split
    case h_1 address stored =>
      intro node member
      rcases List.mem_append.mp member with front | back
      · exact wf.addressFresh node (List.mem_of_mem_filter front)
      · exact wf.addressFresh node (List.mem_of_mem_filter back)
    case h_2 =>
      intro node member
      rcases List.mem_cons.mp member with fresh | old
      · rw [fresh]
        exact Nat.lt_succ_self _
      · exact (wf.addressFresh node old).trans (Nat.lt_succ_self _)
  · intro other address
    unfold KeyPrecomputations.touch
    split
    case h_1 moved stored =>
      rw [wf.positions other address, List.mem_append, List.mem_filter, List.mem_filter,
        ← and_or_left]
      simp [em]
    case h_2 absent =>
      by_cases same : other = index
      · subst same
        have unlisted : (⟨address, other⟩ : LruNode) ∉ keys.lruOrder := by
          intro member
          rw [(wf.positions other address).mpr member] at absent
          cases absent
        rw [AList.lookup_insert, List.mem_cons, or_iff_left unlisted]
        simp [eq_comm]
      · rw [AList.lookup_insert_ne same, wf.positions other address, List.mem_cons]
        simp [same]
  · intro other member
    rw [touch_rotKeys]
    rw [touch_recency wf] at member
    rcases List.mem_cons.mp member with front | back
    · exact ⟨key, front ▸ present, resident⟩
    · exact wf.residentOnly other (List.mem_of_mem_filter back)

/-- An eviction attempt either changes nothing or offloads a resident key with a snapshot. -/
theorem offloadKey_cases (keys : KeyPrecomputations) (index : Int) :
    keys.offloadKey index = (keys, false) ∨
      ∃ key, keys.rotKeys.lookup index = some key ∧ key.resident ∧ key.hasSnapshot ∧
        keys.offloadKey index = ({ keys with
          rotKeys := keys.rotKeys.insert index { key with resident := false }
          residentBytes := keys.residentBytes - key.limbBytes }.forgetLru index, true) := by
  unfold offloadKey
  split
  case h_1 => exact Or.inl rfl
  case h_2 key present =>
    split
    case isTrue => exact Or.inl rfl
    case isFalse ready =>
      obtain ⟨resident, snapshot⟩ : key.resident = true ∧ key.hasSnapshot = true := by
        simpa [not_or] using ready
      refine Or.inr ⟨key, present, resident, snapshot, ?_⟩
      rw [KeySwitchingKey.offload, if_pos resident]

/-- A resident key with a snapshot is offloaded. -/
theorem offloadKey_ready {index : Int} {key : KeySwitchingKey}
    (present : keys.rotKeys.lookup index = some key) (resident : key.resident)
    (snapshot : key.hasSnapshot) :
    keys.offloadKey index = ({ keys with
      rotKeys := keys.rotKeys.insert index { key with resident := false }
      residentBytes := keys.residentBytes - key.limbBytes }.forgetLru index, true) := by
  simp [offloadKey, present, resident, snapshot, KeySwitchingKey.offload]

/-- A key without a snapshot stays as it is. -/
theorem offloadKey_unready {index : Int} {key : KeySwitchingKey}
    (present : keys.rotKeys.lookup index = some key) (snapshot : key.hasSnapshot = false) :
    keys.offloadKey index = (keys, false) := by
  simp [offloadKey, present, snapshot]

/-- An offloaded index leaves the list before its key stops being resident. -/
theorem LruWf.offload (wf : keys.LruWf) (index : Int) (key : KeySwitchingKey) (bytes : UInt64) :
    ({ keys with rotKeys := keys.rotKeys.insert index key, residentBytes := bytes }.forgetLru
      index).LruWf := by
  have swap : ({ keys with rotKeys := keys.rotKeys.insert index key, residentBytes := bytes } :
      KeyPrecomputations).forgetLru index =
      { keys.forgetLru index with
        rotKeys := keys.rotKeys.insert index key, residentBytes := bytes } := by
    unfold KeyPrecomputations.forgetLru
    dsimp only
    split <;> rfl
  rw [swap]
  refine (wf.forgetLru index).change_keys _ _ _ ?_
  intro other listed
  rw [forgetLru_recency wf] at listed
  obtain ⟨old, different⟩ := List.mem_filter.mp listed
  rw [AList.lookup_insert_ne (by simpa using different)]
  exact wf.residentOnly other old

theorem LruWf.offloadKey (wf : keys.LruWf) (index : Int) : (keys.offloadKey index).1.LruWf := by
  rcases offloadKey_cases keys index with same | ⟨key, _, _, _, moved⟩
  · rw [same]
    exact wf
  · rw [moved]
    exact wf.offload index _ _

/-- One eviction round attempts to offload one key. -/
theorem evictRound_cases {budget incoming : UInt64} {next : KeyPrecomputations}
    (moved : keys.evictRound budget incoming = some next) :
    ∃ index, keys.evictVictim = some index ∧ next = (keys.offloadKey index).1 := by
  unfold evictRound at moved
  split at moved
  case isTrue =>
    obtain ⟨index, victim, evicted⟩ := Option.map_eq_some_iff.mp moved
    exact ⟨index, victim, evicted.symm⟩
  case isFalse => cases moved

/-- The eviction loop repeats the eviction round. -/
theorem evictToFit_eq_run (fuel : Nat) (budget incoming : UInt64) (keys : KeyPrecomputations) :
    keys.evictToFit fuel budget incoming =
      Loop.run (evictRound budget incoming) fuel keys := by
  induction fuel generalizing keys with
  | zero => rfl
  | succ fuel ih =>
      unfold evictToFit Loop.run
      cases keys.evictRound budget incoming with
      | none => rfl
      | some next => exact ih next

/-- A property that every offload keeps holds after the eviction loop. -/
theorem evictToFit_invariant (property : KeyPrecomputations → Prop)
    (kept : ∀ keys index, property keys → property (KeyPrecomputations.offloadKey keys index).1)
    {fuel : Nat} {budget incoming : UInt64} {result : KeyPrecomputations}
    (ran : keys.evictToFit fuel budget incoming = some result) (first : property keys) :
    property result := by
  rw [evictToFit_eq_run] at ran
  refine (Loop.run_result ran).1.invariant property ?_ first
  intro before after moved held
  obtain ⟨index, _, rfl⟩ := evictRound_cases moved
  exact kept before index held

theorem LruWf.evictToFit (wf : keys.LruWf) {fuel : Nat} {budget incoming : UInt64}
    {result : KeyPrecomputations} (ran : keys.evictToFit fuel budget incoming = some result) :
    result.LruWf :=
  evictToFit_invariant LruWf (fun _ index held => held.offloadKey index) ran wf

theorem LruWf.insert (wf : keys.LruWf) (index : Int) {key : KeySwitchingKey} (bytes : UInt64)
    (resident : key.resident) :
    { keys with rotKeys := keys.rotKeys.insert index key, residentBytes := bytes }.LruWf := by
  apply wf.change_keys
  intro other listed
  by_cases same : other = index
  · subst same
    exact ⟨key, AList.lookup_insert _, resident⟩
  · rw [AList.lookup_insert_ne same]
    exact wf.residentOnly other listed

/-- A loaded key joins the front of the list. -/
theorem LruWf.load (wf : keys.LruWf) (index : Int) {key : KeySwitchingKey} (bytes : UInt64)
    (resident : key.resident) :
    ({ keys with rotKeys := keys.rotKeys.insert index key, residentBytes := bytes }.touch
      index).LruWf :=
  (wf.insert index bytes resident).touch (AList.lookup_insert _) resident

/-- A successful reload is resident and keeps the other fields. -/
theorem ensureResident_key {key loaded : KeySwitchingKey} (success : key.ensureResident = .ok loaded) :
    loaded = { key with resident := true } := by
  unfold KeySwitchingKey.ensureResident at success
  split at success
  case isTrue resident =>
    cases success
    cases key
    cases resident
    rfl
  case isFalse =>
    split at success
    case isTrue =>
      cases success
      rfl
    case isFalse => cases success

/-- A request fails, touches a resident key, or loads a key after the eviction loop. -/
theorem ensureResident_cases {fuel : Nat} {index : Int} {budget : UInt64} {mayEvict : Bool}
    {next : KeyPrecomputations} {outcome : Except CacheError KeySwitchingKey}
    (ran : keys.ensureResident fuel index budget mayEvict = some (next, outcome)) :
    next = keys ∨
      (∃ key, keys.rotKeys.lookup index = some key ∧ key.resident ∧ next = keys.touch index) ∨
      ∃ key fitted, keys.rotKeys.lookup index = some key ∧ key.resident = false ∧
        (fitted = keys ∨ keys.evictToFit fuel budget key.limbBytes = some fitted) ∧
        (next = fitted ∨ key.hasSnapshot ∧ next = { fitted with
          rotKeys := fitted.rotKeys.insert index { key with resident := true }
          residentBytes := fitted.residentBytes + key.limbBytes }.touch index) := by
  unfold ensureResident at ran
  split at ran
  case h_1 =>
    cases ran
    exact Or.inl rfl
  case h_2 key present =>
    split at ran
    case isTrue resident =>
      cases ran
      exact Or.inr (Or.inl ⟨key, present, resident, rfl⟩)
    case isFalse absent =>
      obtain ⟨fitted, fits, loads⟩ := Option.map_eq_some_iff.mp ran
      have source : fitted = keys ∨ keys.evictToFit fuel budget key.limbBytes = some fitted := by
        split at fits
        · exact Or.inr fits
        · exact Or.inl (Option.some.inj fits).symm
      refine Or.inr (Or.inr ⟨key, fitted, present, by simpa using absent, source, ?_⟩)
      have snapshot (loaded : KeySwitchingKey) (success : key.ensureResident = .ok loaded) :
          key.hasSnapshot = true := by
        unfold KeySwitchingKey.ensureResident at success
        rw [if_neg absent] at success
        split at success
        case isTrue saved => exact saved
        case isFalse => cases success
      split at loads
      case h_1 => exact Or.inl (congrArg Prod.fst loads).symm
      case h_2 loaded success =>
        have shape := ensureResident_key success
        refine Or.inr ⟨snapshot loaded success, ?_⟩
        rw [shape] at loads
        exact (congrArg Prod.fst loads).symm

theorem LruWf.ensureResident (wf : keys.LruWf) {fuel : Nat} {index : Int} {budget : UInt64}
    {mayEvict : Bool} {next : KeyPrecomputations} {outcome : Except CacheError KeySwitchingKey}
    (ran : keys.ensureResident fuel index budget mayEvict = some (next, outcome)) : next.LruWf := by
  rcases ensureResident_cases ran with rfl | ⟨key, present, resident, rfl⟩ |
    ⟨key, fitted, _, _, source, loads⟩
  · exact wf
  · exact wf.touch present resident
  · have fittedWf : fitted.LruWf := by
      rcases source with rfl | evicted
      · exact wf
      · exact wf.evictToFit evicted
    rcases loads with rfl | ⟨_, rfl⟩
    · exact fittedWf
    · exact fittedWf.load index _ rfl

theorem LruWf.addKey (wf : keys.LruWf) (index : Int) (key : KeySwitchingKey) :
    (keys.addKey index key).LruWf := by
  unfold KeyPrecomputations.addKey KeyPrecomputations.registerKey
  split
  case h_1 stored _ =>
    split
    · exact wf.change_keys _ _ _ wf.residentOnly
    · exact wf
  case h_2 absent =>
    have stays : ∀ other ∈ keys.recency, ∃ stored, (keys.rotKeys.insert index key).lookup other =
        some stored ∧ stored.resident := by
      intro other listed
      obtain ⟨stored, present, resident⟩ := wf.residentOnly other listed
      have different : other ≠ index := by
        rintro rfl
        rw [absent] at present
        cases present
      exact ⟨stored, by rw [AList.lookup_insert_ne different, present], resident⟩
    split
    · exact wf.change_keys _ _ _ stays
    · exact wf.change_keys _ _ _ stays

/-- A property that every offload keeps holds after a list of offloads. -/
theorem offloadKeys_invariant (property : KeyPrecomputations → Prop)
    (kept : ∀ keys index, property keys → property (KeyPrecomputations.offloadKey keys index).1)
    (indexes : List Int) (first : property keys) : property (keys.offloadKeys indexes) := by
  unfold offloadKeys
  generalize keys.rotKeys.keys = stored
  induction stored generalizing keys with
  | nil => exact first
  | cons index rest ih =>
      rw [List.foldl_cons]
      apply ih
      split
      · exact first
      · exact kept keys index first

theorem LruWf.offloadKeys (wf : keys.LruWf) (indexes : List Int) : (keys.offloadKeys indexes).LruWf :=
  offloadKeys_invariant LruWf (fun _ index held => held.offloadKey index) indexes wf

theorem LruWf.pinKey (wf : keys.LruWf) (index : Int) (pin : Bool) : (keys.pinKey index pin).LruWf := by
  unfold KeyPrecomputations.pinKey
  split
  · exact wf
  · split <;> exact wf.change_keys _ _ _ wf.residentOnly

theorem LruWf.clear (keys : KeyPrecomputations) : keys.clear.LruWf where
  indexNodup := List.nodup_nil
  addressNodup := List.nodup_nil
  addressFresh := by simp [KeyPrecomputations.clear, resetCacheBookkeeping]
  positions := by simp [KeyPrecomputations.clear, resetCacheBookkeeping]
  residentOnly := by simp [KeyPrecomputations.clear, resetCacheBookkeeping, recency]

end KeyPrecomputations

/-- This relation lists what one call does to one key set. -/
inductive KeySetStep (context : ContextData) (keyID : KeyHash) (keys : KeyPrecomputations) :
    Call → KeyPrecomputations → Prop
  | same (call : Call) : KeySetStep context keyID keys call keys
  | add (index : Int) (key : KeySwitchingKey) (tag : key.keyID = keyID) :
      KeySetStep context keyID keys (.addRotationKey index key)
        (keys.addKey (context.liftIndex index) key)
  | ensure (call : Call) {fuel : Nat} {index : Int} {budget : UInt64} {mayEvict : Bool}
      {next : KeyPrecomputations} {outcome : Except CacheError KeySwitchingKey}
      (ran : keys.ensureResident fuel index budget mayEvict = some (next, outcome)) :
      KeySetStep context keyID keys call next
  | offload (call : Call) (indexes : List Int) :
      KeySetStep context keyID keys call (keys.offloadKeys indexes)
  | pin (call : Call) (index : Int) (pin : Bool) :
      KeySetStep context keyID keys call (keys.pinKey index pin)
  | enforce (call : Call) {fuel : Nat} {budget : UInt64} {next : KeyPrecomputations}
      (ran : keys.enforceBudget fuel budget = some next) : KeySetStep context keyID keys call next
  | clear (call : Call) : KeySetStep context keyID keys call keys.clear

namespace ContextData

/-- A missing key set reads as an empty one. -/
def keySet (context : ContextData) (keyID : KeyHash) : KeyPrecomputations :=
  (context.keys.lookup keyID).getD {}

theorem keySet_of_lookup {context : ContextData} {keyID : KeyHash} {keys : KeyPrecomputations}
    (present : context.keys.lookup keyID = some keys) : context.keySet keyID = keys := by
  rw [keySet, present, Option.getD_some]

@[simp] theorem keySet_setKeySet_self (context : ContextData) (keyID : KeyHash)
    (keys : KeyPrecomputations) : (context.setKeySet keyID keys).keySet keyID = keys := by
  simp [keySet, setKeySet]

theorem keySet_setKeySet_ne (context : ContextData) {keyID other : KeyHash}
    (keys : KeyPrecomputations) (different : other ≠ keyID) :
    (context.setKeySet keyID keys).keySet other = context.keySet other := by
  simp [keySet, setKeySet, AList.lookup_insert_ne different]

@[simp] theorem keySet_openKeySet (context : ContextData) (keyID other : KeyHash) :
    (context.openKeySet keyID).keySet other = context.keySet other := by
  unfold openKeySet
  split
  case h_1 => rfl
  case h_2 absent =>
    by_cases same : other = keyID
    · subst same
      simp [keySet, absent]
    · simp [keySet, AList.lookup_insert_ne same]

/-- An opened key set is stored. -/
theorem openKeySet_lookup (context : ContextData) (keyID : KeyHash) :
    (context.openKeySet keyID).keys.lookup keyID = some (context.keySet keyID) := by
  unfold openKeySet
  split
  case h_1 keys present => rw [keySet_of_lookup present, present]
  case h_2 absent => simp [keySet, absent]

/-- An addition changes the opened key set of its key. -/
theorem addRotationKey_eq (context : ContextData) (index : Int) (key : KeySwitchingKey) :
    context.addRotationKey index key = (context.openKeySet key.keyID).setKeySet key.keyID
      ((context.keySet key.keyID).addKey (context.liftIndex index) key) := by
  simp only [addRotationKey, openKeySet_lookup]

/-- A change of every stored key set either applies or meets an absent set. -/
theorem keySet_mapValues (context : ContextData) (keyID : KeyHash)
    (change : KeyHash → KeyPrecomputations → KeyPrecomputations) :
    ({ context with keys := KeyedMap.mapValues change context.keys } : ContextData).keySet keyID =
        change keyID (context.keySet keyID) ∨
      ({ context with keys := KeyedMap.mapValues change context.keys } : ContextData).keySet keyID =
        context.keySet keyID := by
  simp only [keySet, KeyedMap.lookup_mapValues]
  cases context.keys.lookup keyID with
  | none => exact Or.inr rfl
  | some keys => exact Or.inl rfl

/-- A fetch changes only the key set it reads. -/
theorem fetchRotationKey_step {context after : ContextData} {keyID other : KeyHash}
    {keys : KeyPrecomputations} {fuel : Nat} {index : Int} {call : Call}
    {outcome : Except CacheError KeySwitchingKey} (present : context.keys.lookup keyID = some keys)
    (ran : context.fetchRotationKey fuel keyID keys index = some (after, outcome)) :
    KeySetStep context other (context.keySet other) call (after.keySet other) := by
  obtain ⟨⟨next, loaded⟩, found, moved⟩ := Option.map_eq_some_iff.mp ran
  have shape : after = context.setKeySet keyID next := (congrArg Prod.fst moved).symm
  by_cases same : other = keyID
  · subst same
    rw [shape, keySet_setKeySet_self, keySet_of_lookup present]
    exact .ensure call found
  · rw [shape, keySet_setKeySet_ne _ _ same]
    exact .same call

/-- A change of the selected key sets moves each key set by the change or not at all. -/
theorem mapValues_step (before : ContextData) (keyID selected : KeyHash) {call : Call}
    (change : KeyPrecomputations → KeyPrecomputations)
    (moves : KeySetStep before keyID (before.keySet keyID) call (change (before.keySet keyID))) :
    KeySetStep before keyID (before.keySet keyID) call
      (keySet { before with keys := KeyedMap.mapValues (fun stored keys =>
        if selects selected stored then change keys else keys) before.keys } keyID) := by
  rcases keySet_mapValues before keyID (fun stored keys =>
    if selects selected stored then change keys else keys) with changed | same
  · rw [changed]
    split
    · exact moves
    · exact .same call
  · rw [same]
    exact .same call

end ContextData

/-- Every call that returns moves every key set by one of the listed steps. -/
theorem Call.step_keySet {call : Call} {before after : ContextData} (moved : call.Step before after)
    (keyID : KeyHash) : KeySetStep before keyID (before.keySet keyID) call (after.keySet keyID) := by
  obtain ⟨fuel, ran⟩ := moved
  cases call with
  | addRotationKey index key =>
      have shape : after = (before.openKeySet key.keyID).setKeySet key.keyID
          ((before.keySet key.keyID).addKey (before.liftIndex index) key) := by
        rw [← ContextData.addRotationKey_eq]
        exact (Option.some.inj ran).symm
      by_cases same : keyID = key.keyID
      · subst same
        rw [shape, ContextData.keySet_setKeySet_self]
        exact .add index key rfl
      · rw [shape, ContextData.keySet_setKeySet_ne _ _ same, ContextData.keySet_openKeySet]
        exact .same _
  | hasRotationKey index opened =>
      cases ran
      rw [show (before.hasRotationKey index opened).1 = before.openKeySet opened from rfl,
        ContextData.keySet_openKeySet]
      exact .same _
  | getRotationKey index selected =>
      obtain ⟨⟨context, outcome⟩, found, rfl⟩ := Option.map_eq_some_iff.mp ran
      unfold ContextData.getRotationKey at found
      split at found
      case h_1 =>
        cases found
        exact .same _
      case h_2 keys present =>
        split at found
        case h_1 =>
          cases found
          exact .same _
        case h_2 => exact ContextData.fetchRotationKey_step present found
  | getRotationKeyForSlots index selected slots =>
      obtain ⟨⟨context, outcome⟩, found, rfl⟩ := Option.map_eq_some_iff.mp ran
      unfold ContextData.getRotationKeyForSlots at found
      split at found
      case h_1 =>
        cases found
        exact .same _
      case h_2 keys present =>
        dsimp only at found
        split at found
        case isTrue =>
          obtain ⟨⟨reached, fetched⟩, fetch, same⟩ := Option.map_eq_some_iff.mp found
          rw [← congrArg Prod.fst same]
          exact ContextData.fetchRotationKey_step present fetch
        case isFalse =>
          split at found
          case h_1 =>
            cases found
            exact .same _
          case h_2 =>
            obtain ⟨⟨reached, fetched⟩, fetch, same⟩ := Option.map_eq_some_iff.mp found
            rw [← congrArg Prod.fst same]
            exact ContextData.fetchRotationKey_step present fetch
  | offloadRotationKeys indexes selected =>
      cases ran
      exact before.mapValues_step keyID selected (fun keys => keys.offloadKeys indexes)
        (.offload _ indexes)
  | pinRotationKey index pin selected =>
      cases ran
      exact before.mapValues_step keyID selected (fun keys => keys.pinKey index pin)
        (.pin _ index pin)
  | setRotationKeyCache bytes =>
      obtain ⟨keys, traversed, rfl⟩ := Option.map_eq_some_iff.mp ran
      have result := KeyedMap.traverse_lookup_cases traversed keyID
      rcases result with ⟨absentBefore, absentAfter⟩ | ⟨old, new, presentBefore, presentAfter, enforced⟩
      · simp only [ContextData.keySet, absentBefore, absentAfter]
        exact .same _
      · simp only [ContextData.keySet, presentBefore, presentAfter, Option.getD_some]
        exact .enforce _ enforced
  | clearAutomorphismKeys selected =>
      cases ran
      exact before.mapValues_step keyID selected KeyPrecomputations.clear (.clear _)
  | holdEviction =>
      cases ran
      exact .same _
  | releaseEviction =>
      cases ran
      exact .same _

/-- Every step keeps the list and the positions consistent. -/
theorem KeySetStep.lruWf {context : ContextData} {keyID : KeyHash} {keys next : KeyPrecomputations}
    {call : Call} (moved : KeySetStep context keyID keys call next) (wf : keys.LruWf) : next.LruWf := by
  cases moved with
  | same => exact wf
  | add index key tag => exact wf.addKey _ key
  | ensure _ ran => exact wf.ensureResident ran
  | offload _ indexes => exact wf.offloadKeys indexes
  | pin _ index pin => exact wf.pinKey index pin
  | enforce _ ran => exact wf.evictToFit ran
  | clear => exact .clear keys

/-- Every key set of a reachable context has a consistent list. -/
theorem Reachable.lruWf {context : ContextData} (reached : Reachable context) (keyID : KeyHash) :
    (context.keySet keyID).LruWf := by
  obtain ⟨logN, run⟩ := reached
  refine run.invariant (fun current => (current.keySet keyID).LruWf)
    KeyPrecomputations.lruWf_empty ?_
  intro call before after _ moved wf
  exact (call.step_keySet moved keyID).lruWf wf

end Fideslib.RotationKeys
