/-
This file proves which primes the tables of the digits list on each device of a context.
-/

import Fideslib.Registry.DigitTables
import Fideslib.Registry.PlacementContract

namespace Fideslib.Registry.Placement

/-- A digit of a device lists its special primes and then its primes of the other digits. -/
def generateDigitMeta (meta_ splitSpecialMeta : List (List LimbRecord))
    (digitGPUid : List (List Int)) : List (List (List LimbRecord)) :=
  digitGPUid.mapIdx fun i digits => digits.map fun d =>
    splitSpecialMeta.getD i [] ++ (meta_.getD i []).filter fun l => l.digit ≠ d

/-- Each digit has its rows. -/
abbrev DigitTables := Nat → DigitRow

/-- The levels of one digit of a device are written to its rows. -/
def setDigit (L : Nat) (digits : List Int) (DECOMPmeta DIGITmeta : List (List LimbRecord))
    (tables : DigitTables) (j : Nat) : DigitTables :=
  let d := (digits.getD j 0).toNat
  Function.update tables d (DigitRow.setLevels L ((DECOMPmeta.getD j []).map LimbRecord.id)
    ((DIGITmeta.getD j []).map LimbRecord.id) L (tables d))

/-- The digits of a device are written to the shared constants one after the other. -/
def setDevice (L : Nat) (digits : List Int) (DECOMPmeta DIGITmeta : List (List LimbRecord))
    (host_constants : DigitTables) : DigitTables :=
  (List.range digits.length).foldl (setDigit L digits DECOMPmeta DIGITmeta) host_constants

/-- Each device gets a copy of the constants as they are after its own digits. -/
def setDevices (L : Nat) (digitGPUid : List (List Int))
    (DECOMPmeta DIGITmeta : List (List (List LimbRecord))) :
    List Nat → DigitTables → List DigitTables
  | [], _ => []
  | i :: devices, host_constants =>
      let filled := setDevice L (digitGPUid.getD i []) (DECOMPmeta.getD i []) (DIGITmeta.getD i [])
        host_constants
      filled :: setDevices L digitGPUid DECOMPmeta DIGITmeta devices filled

/-- These are the tables that the constants of the devices end with. -/
def host_constants_per_gpu (placement : Placement) (devs : List Int) : List DigitTables :=
  let GPUdigits := generateGPUdigits placement.dnum devs
  setDevices (placement.L + 1).toNat GPUdigits placement.decompMeta
    (generateDigitMeta placement.meta_ placement.splitSpecialMeta GPUdigits)
    (List.range devs.length) fun _ => .zero

/-- The primes of a digit up to a level. -/
def InDigit (placement : Placement) (d k id : Nat) : Prop :=
  ∃ record ∈ placement.meta_.flatten, record.id = id ∧ record.digit = d ∧ id ≤ k

/-- The special primes and the primes of the other digits up to a level. -/
def Outside (placement : Placement) (d k id : Nat) : Prop :=
  (placement.chain ≤ id ∧ id < placement.total) ∨
    ∃ record ∈ placement.meta_.flatten, record.id = id ∧ record.digit ≠ d ∧ id ≤ k

/-- Those of them that one device holds. -/
def HeldOutside (placement : Placement) (device d k id : Nat) : Prop :=
  (∃ record ∈ placement.splitSpecialMeta.getD device [], record.id = id) ∨
    ∃ record ∈ placement.meta_.getD device [], record.id = id ∧ record.digit ≠ d ∧ id ≤ k

section Loops

/-- The rows of a digit end as its own step leaves them. -/
theorem foldl_setDigit {L count : Nat} {digits : List Int}
    {DECOMPmeta DIGITmeta : List (List LimbRecord)} {host_constants : DigitTables}
    (own : ∀ j < count, (digits.getD j 0).toNat = j) {d : Nat} (inside : d < count) :
    ∃ row, (List.range count).foldl (setDigit L digits DECOMPmeta DIGITmeta) host_constants d =
      DigitRow.setLevels L ((DECOMPmeta.getD d []).map LimbRecord.id)
        ((DIGITmeta.getD d []).map LimbRecord.id) L row := by
  induction count with
  | zero => omega
  | succ count inductionHypothesis =>
      rw [List.range_succ, List.foldl_append, List.foldl_cons, List.foldl_nil, setDigit,
        own count (by omega)]
      by_cases last : d = count
      · subst last
        rw [Function.update_self]
        exact ⟨_, rfl⟩
      · rw [Function.update_of_ne last]
        exact inductionHypothesis (fun j bound => own j (by omega)) (by omega)

theorem setDevice_row {L dnum : Nat} {DECOMPmeta DIGITmeta : List (List LimbRecord)}
    {host_constants : DigitTables} {d : Nat} (inside : d < dnum) :
    ∃ row, setDevice L ((List.range dnum).map Int.ofNat) DECOMPmeta DIGITmeta host_constants d =
      DigitRow.setLevels L ((DECOMPmeta.getD d []).map LimbRecord.id)
        ((DIGITmeta.getD d []).map LimbRecord.id) L row := by
  rw [setDevice, List.length_map, List.length_range]
  refine foldl_setDigit (fun j bound => ?_) inside
  rw [List.getD_eq_getElem _ _ (by simpa using bound), List.getElem_map, List.getElem_range]
  rfl

theorem setDevices_length (L : Nat) (digitGPUid : List (List Int))
    (DECOMPmeta DIGITmeta : List (List (List LimbRecord))) (devices : List Nat)
    (host_constants : DigitTables) :
    (setDevices L digitGPUid DECOMPmeta DIGITmeta devices host_constants).length =
      devices.length := by
  induction devices generalizing host_constants with
  | nil => rfl
  | cons i devices inductionHypothesis =>
      rw [setDevices, List.length_cons, List.length_cons, inductionHypothesis]

/-- The constants of a device are what the step of this device has left. -/
theorem setDevices_entry {L : Nat} {digitGPUid : List (List Int)}
    {DECOMPmeta DIGITmeta : List (List (List LimbRecord))} {devices : List Nat}
    {host_constants : DigitTables} {place : Nat} {tables : DigitTables}
    (found : (setDevices L digitGPUid DECOMPmeta DIGITmeta devices host_constants)[place]? =
      some tables) :
    ∃ i before, devices[place]? = some i ∧ tables = setDevice L (digitGPUid.getD i [])
      (DECOMPmeta.getD i []) (DIGITmeta.getD i []) before := by
  induction devices generalizing host_constants place with
  | nil => cases found
  | cons i devices inductionHypothesis =>
      cases place with
      | zero =>
          cases found
          exact ⟨i, host_constants, rfl, rfl⟩
      | succ place => exact inductionHypothesis found

theorem gpuDigits_entry {dnum : Int} {devs : List Int} {i : Nat} (inside : i < devs.length) :
    (generateGPUdigits dnum devs).getD i [] = (List.range dnum.toNat).map Int.ofNat := by
  rw [generateGPUdigits, List.getD_eq_getElem _ _ (by simpa using inside), List.getElem_map]

theorem digitMeta_entry {meta_ splitSpecialMeta : List (List LimbRecord)} {dnum : Int}
    {devs : List Int} {i d : Nat} (inside : i < devs.length) (bound : d < dnum.toNat) :
    ((generateDigitMeta meta_ splitSpecialMeta (generateGPUdigits dnum devs)).getD i []).getD d [] =
      splitSpecialMeta.getD i [] ++ (meta_.getD i []).filter fun l => l.digit ≠ (d : Int) := by
  have digits := @gpuDigits_entry dnum devs i inside
  have counted : i < (generateGPUdigits dnum devs).length := by simpa [generateGPUdigits] using inside
  rw [List.getD_eq_getElem _ _ counted] at digits
  have outer : (generateDigitMeta meta_ splitSpecialMeta (generateGPUdigits dnum devs)).getD i [] =
      ((List.range dnum.toNat).map Int.ofNat).map fun d =>
        splitSpecialMeta.getD i [] ++ (meta_.getD i []).filter fun l => l.digit ≠ d := by
    rw [generateDigitMeta, List.getD_eq_getElem _ _ (by simpa using counted), List.getElem_mapIdx,
      digits]
  rw [outer, List.map_map, List.getD_eq_getElem _ _ (by simpa using bound), List.getElem_map,
    List.getElem_range]
  rfl

end Loops

section Context

variable {param : Parameters} {devs : List Int} {placement : Placement}
  {record : Nat → LimbRecord} {special : List LimbRecord}
  (hasDevice : devs ≠ []) (parts : Parts param devs placement record special)

include parts

/-- A device holds every prime that is dealt to it. -/
theorem Parts.held {device : Nat} (inside : device < devs.length) :
    placement.meta_.getD device [] =
      ((List.range placement.chain).filter fun i => i % devs.length = device).map record := by
  rw [parts.meta_, dealt, List.getD_eq_getElem _ _ (by simpa using inside), List.getElem_map,
    List.getElem_range]

/-- The ids of the primes of a device outside a digit ascend. -/
theorem Parts.held_ids {device : Nat} (inside : device < devs.length) (d : Int) :
    ((placement.meta_.getD device []).filter fun l => l.digit ≠ d).map LimbRecord.id =
      ((List.range placement.chain).filter fun i => i % devs.length = device).filter
        fun i => (record i).digit ≠ d := by
  rw [parts.held inside, List.filter_map, List.map_map]
  exact (List.map_congr_left fun i _ => parts.own i).trans (List.map_id _)

include hasDevice

/-- The ids of a digit are those of its primes in their order. -/
theorem Parts.digit_ids {device d : Nat} (inside : device < devs.length)
    (bound : d < placement.dnum.toNat) :
    ((placement.decompMeta.getD device []).getD d []).map LimbRecord.id =
      (List.range placement.chain).filter fun i => (record i).digit = d := by
  have own {Item : Type} (items : List Item) :
      (List.replicate devs.length items).getD device [] = items := by
    rw [List.getD_eq_getElem _ _ (by simpa using inside), List.getElem_replicate]
  rw [parts.decomposed hasDevice, own, List.getD_eq_getElem _ _ (by simpa using bound),
    List.getElem_map, List.getElem_range, parts.gather_eq hasDevice, List.filter_map, List.map_map]
  exact (List.map_congr_left fun i _ => parts.own i).trans (List.map_id _)

/-- The special primes of a device follow the chain and differ. -/
theorem Parts.special_ids (device : Nat) :
    ((placement.splitSpecialMeta.getD device []).map LimbRecord.id).Nodup ∧
      ∀ id ∈ (placement.splitSpecialMeta.getD device []).map LimbRecord.id,
        placement.chain ≤ id := by
  have part : ((placement.splitSpecialMeta.getD device []).map LimbRecord.id).Sublist
      (List.range' placement.chain placement.K.toNat) := by
    rw [← parts.numbered, ← parts.flatten_special hasDevice]
    refine List.Sublist.map _ ?_
    by_cases inside : device < placement.splitSpecialMeta.length
    · rw [List.getD_eq_getElem _ _ inside]
      exact List.sublist_flatten_of_mem (List.getElem_mem inside)
    · rw [List.getD_eq_default _ _ (by omega)]
      exact List.nil_sublist _
  refine ⟨part.nodup List.nodup_range', fun id member => ?_⟩
  exact (List.mem_range'_1.mp (part.subset member)).1

/-- The lists of a digit are ordered on each device. -/
theorem Parts.ordered {device d : Nat} (inside : device < devs.length)
    (bound : d < placement.dnum.toNat) :
    DigitRow.Ordered placement.chain
      (((placement.decompMeta.getD device []).getD d []).map LimbRecord.id)
      ((placement.splitSpecialMeta.getD device []).map LimbRecord.id ++
        ((placement.meta_.getD device []).filter fun l => l.digit ≠ (d : Int)).map LimbRecord.id) := by
  obtain ⟨distinct, above⟩ := parts.special_ids hasDevice device
  rw [parts.digit_ids hasDevice inside bound, parts.held_ids inside]
  refine DigitRow.ordered_of_ascending ?_ ?_ above distinct ?_ ?_ ?_
  · exact List.pairwise_lt_range.filter _
  · exact (List.pairwise_lt_range.filter _).filter _
  · intro id member
    exact List.mem_range.mp (List.mem_filter.mp member).1
  · intro id member
    exact List.mem_range.mp (List.mem_filter.mp (List.mem_filter.mp member).1).1
  · intro id member other
    have same := of_decide_eq_true (List.mem_filter.mp member).2
    have different := of_decide_eq_true (List.mem_filter.mp other).2
    exact different same

/-- The primes that the list of a digit has up to a level are those of the digit. -/
theorem Parts.mem_digit {device d k id : Nat} (inside : device < devs.length)
    (bound : d < placement.dnum.toNat) :
    id ∈ ((placement.decompMeta.getD device []).getD d []).map LimbRecord.id ∧ id ≤ k ↔
      placement.InDigit d k id := by
  rw [parts.digit_ids hasDevice inside bound, List.mem_filter, List.mem_range, decide_eq_true_eq,
    InDigit]
  constructor
  · rintro ⟨⟨below, digit⟩, level⟩
    exact ⟨record id, (parts.mem_chain hasDevice).mpr ⟨id, below, rfl⟩, parts.own id, digit, level⟩
  · rintro ⟨l, member, rfl, digit, level⟩
    obtain ⟨i, below, rfl⟩ := (parts.mem_chain hasDevice).mp member
    rw [parts.own] at level ⊢
    exact ⟨⟨below, digit⟩, level⟩

/-- The special primes of the device are listed with its live primes outside the digit. -/
theorem Parts.mem_outside {device d k id : Nat} (inside : device < devs.length) :
    (id ∈ (placement.splitSpecialMeta.getD device []).map LimbRecord.id ++
        ((placement.meta_.getD device []).filter fun l => l.digit ≠ (d : Int)).map LimbRecord.id ∧
      (id ≤ k ∨ placement.chain ≤ id)) ↔ placement.HeldOutside device d k id := by
  have above := (parts.special_ids hasDevice device).2
  have regular : ∀ l ∈ placement.meta_.getD device [], l.id < placement.chain := by
    intro l member
    rw [parts.held inside] at member
    obtain ⟨i, listed, rfl⟩ := List.mem_map.mp member
    rw [parts.own]
    exact List.mem_range.mp (List.mem_filter.mp listed).1
  rw [List.mem_append, HeldOutside]
  constructor
  · rintro ⟨special | other, live⟩
    · obtain ⟨l, member, same⟩ := List.mem_map.mp special
      exact Or.inl ⟨l, member, same⟩
    · obtain ⟨l, member, rfl⟩ := List.mem_map.mp other
      obtain ⟨held, digit⟩ := List.mem_filter.mp member
      have below := regular l held
      exact Or.inr ⟨l, held, rfl, of_decide_eq_true digit, by omega⟩
  · rintro (⟨l, member, rfl⟩ | ⟨l, held, rfl, digit, live⟩)
    · have listed := List.mem_map_of_mem (f := LimbRecord.id) member
      exact ⟨Or.inl listed, Or.inr (above l.id listed)⟩
    · have kept : l ∈ (placement.meta_.getD device []).filter fun l => l.digit ≠ (d : Int) :=
        List.mem_filter.mpr ⟨held, decide_eq_true digit⟩
      exact ⟨Or.inr (List.mem_map_of_mem kept), Or.inl live⟩

/-- The tables of a digit list its primes and those that the device holds outside it. -/
theorem Parts.lists {device d k : Nat} {tables : DigitTables}
    (found : (placement.host_constants_per_gpu devs)[device]? = some tables)
    (bound : d < placement.dnum.toNat) (level : k < placement.chain) :
    (tables d).Lists k (placement.InDigit d k) (placement.HeldOutside device d k) := by
  obtain ⟨i, before, listed, rfl⟩ := setDevices_entry found
  obtain ⟨inside, rfl⟩ := List.getElem?_eq_some_iff.mp listed
  rw [List.length_range] at inside
  rw [List.getElem_range, gpuDigits_entry inside]
  obtain ⟨row, same⟩ := setDevice_row bound
  rw [same, digitMeta_entry inside bound, List.map_append]
  have ordered := parts.ordered hasDevice inside bound
  have lists := (DigitRow.setLevels_describes ordered level row).lists ordered
  have source : (fun id => id ∈ ((placement.decompMeta.getD device []).getD d []).map
      LimbRecord.id ∧ id ≤ k) = placement.InDigit d k :=
    funext fun id => propext (parts.mem_digit hasDevice inside bound)
  rw [source, funext fun id => propext (parts.mem_outside hasDevice inside)] at lists
  exact lists

/-- A single device holds all primes. -/
theorem Parts.held_by_one (single : devs.length = 1) (d k : Nat) :
    placement.HeldOutside 0 d k = placement.Outside d k := by
  have whole {rows : List (List LimbRecord)} (one : rows.length = 1) :
      rows.getD 0 [] = rows.flatten := by
    obtain ⟨row, rfl⟩ := List.length_eq_one_iff.mp one
    simp
  have shared := (parts.sound hasDevice).shared
  have total := parts.total_eq
  funext id
  rw [HeldOutside, Outside, whole (shared.2.trans single), whole (shared.1.trans single)]
  have special : (∃ l ∈ placement.splitSpecialMeta.flatten, l.id = id) ↔
      placement.chain ≤ id ∧ id < placement.total := by
    rw [← List.mem_map, parts.flatten_special hasDevice, parts.numbered, List.mem_range'_1, total]
  rw [special]

end Context

/-- Tables that pass the check have room for the primes and the digits. -/
theorem checkTables_room {q p : List PrimeRecord} {meta_ : List (List LimbRecord)}
    {smeta : List LimbRecord} {dnum : Int} {devs : List Int} {checked : Unit} (hasDevice : devs ≠ [])
    (passed : checkTables q p meta_ smeta (generateGPUdigits dnum devs) = .ok checked) :
    dnum.toNat ≤ MAXD ∧ q.length + p.length ≤ MAXP := by
  obtain ⟨device, rest, rfl⟩ := List.exists_cons_of_ne_nil hasDevice
  simp only [checkTables] at passed
  split at passed
  · cases passed
  · rename_i fits
    split at passed
    · cases passed
    · rename_i digits
      refine ⟨?_, by omega⟩
      have grows (counts : List Int) (least : Int) : least ≤ counts.foldl max least := by
        induction counts generalizing least with
        | nil => exact le_rfl
        | cons count counts inductionHypothesis =>
            exact (le_max_left least count).trans (inductionHypothesis (max least count))
      have counted := grows ((generateGPUdigits dnum rest).map fun g => (g.length : Int))
        (max 0 (dnum.toNat : Int))
      have first : (generateGPUdigits dnum (device :: rest)).map (fun g => (g.length : Int)) =
          (dnum.toNat : Int) :: (generateGPUdigits dnum rest).map fun g => (g.length : Int) := by
        simp [generateGPUdigits]
      rw [first, List.foldl_cons] at digits
      omega

/-- The tables have room for the digits and the primes of an accepted context. -/
theorem ContextData_bounds {asserts : Bool} {param : Parameters} {devs : List Int}
    {placement : Placement} (hasDevice : devs ≠ [])
    (accepted : ContextData asserts param devs = .ok placement) :
    placement.dnum.toNat ≤ MAXD ∧ placement.total ≤ MAXP := by
  unfold ContextData at accepted
  obtain ⟨⟨_, primes⟩, -, accepted⟩ := returned accepted
  obtain ⟨dnum, -, accepted⟩ := returned accepted
  obtain ⟨prime, resized, accepted⟩ := returned accepted
  obtain ⟨meta_, -, accepted⟩ := returned accepted
  obtain ⟨⟨K, Sprimes⟩, -, accepted⟩ := returned accepted
  obtain ⟨⟨_, filled⟩, -, accepted⟩ := returned accepted
  obtain ⟨specialPrime, specials, accepted⟩ := returned accepted
  obtain ⟨first, -, accepted⟩ := returned accepted
  obtain ⟨limbGPUid, -, accepted⟩ := returned accepted
  obtain ⟨_, checked, accepted⟩ := returned accepted
  cases accepted
  obtain ⟨chainSize, primeLength⟩ := resize_length (lift_ok resized)
  obtain ⟨specialSize, specialLength⟩ := resize_length (lift_ok specials)
  obtain ⟨digits, room⟩ := checkTables_room hasDevice checked
  refine ⟨digits, ?_⟩
  change (param.L + 1 + K).toNat ≤ MAXP
  omega

/-- The first entries of the tables of each device are the primes of the digit and those outside
it that the device holds, and the places invert the tables. -/
theorem digit_tables_right {asserts : Bool} (param : Parameters) {devs : List Int}
    (hasDevice : devs ≠ []) {placement : Placement}
    (accepted : GenCryptoContextGPU asserts param devs = .ok placement) :
    (placement.host_constants_per_gpu devs).length = devs.length ∧
      placement.dnum.toNat ≤ MAXD ∧ placement.total ≤ MAXP ∧
      ∀ (device : Nat) (tables : DigitTables),
        (placement.host_constants_per_gpu devs)[device]? = some tables →
        ∀ d < placement.dnum.toNat, ∀ k < placement.chain,
          (tables d).Lists k (placement.InDigit d k) (placement.HeldOutside device d k) ∧
            (devs.length = 1 →
              (tables d).Lists k (placement.InDigit d k) (placement.Outside d k)) := by
  unfold GenCryptoContextGPU at accepted
  split at accepted
  · cases accepted
  · obtain ⟨record, special, parts⟩ := ContextData_parts hasDevice accepted
    obtain ⟨digits, primes⟩ := ContextData_bounds hasDevice accepted
    have length : (placement.host_constants_per_gpu devs).length = devs.length := by
      rw [host_constants_per_gpu, setDevices_length, List.length_range]
    refine ⟨length, digits, primes, ?_⟩
    intro device tables found d bound k level
    have lists := parts.lists hasDevice found bound level
    refine ⟨lists, fun single => ?_⟩
    have inside := (List.getElem?_eq_some_iff.mp found).1
    have zero : device = 0 := by omega
    rw [← parts.held_by_one hasDevice single, ← zero]
    exact lists

/-- The first of two devices lists its only prime of the other digit. -/
theorem digit_tables_right_two_devices :
    ∃ (placement : Placement) (tables : DigitTables),
      GenCryptoContextGPU false fivePrimes [0, 1] = .ok placement ∧
      (placement.host_constants_per_gpu [0, 1])[0]? = some tables ∧
      (tables 0).Lists 4 (placement.InDigit 0 4) (placement.HeldOutside 0 0 4) := by
  have built : (GenCryptoContextGPU false fivePrimes [0, 1]).toOption.map (fun placement =>
      (placement.dnum, placement.chain)) = some (2, 5) := by decide
  cases accepted : GenCryptoContextGPU false fivePrimes [0, 1] with
  | error failure =>
      rw [accepted] at built
      cases built
  | ok placement =>
      rw [accepted] at built
      have dnum : placement.dnum = 2 := congrArg Prod.fst (Option.some.inj built)
      have chain : placement.chain = 5 := congrArg Prod.snd (Option.some.inj built)
      obtain ⟨length, -, -, lists⟩ :=
        digit_tables_right fivePrimes (show [0, 1] ≠ [] by decide) accepted
      have inside : 0 < (placement.host_constants_per_gpu [0, 1]).length := length ▸ Nat.two_pos
      refine ⟨placement, _, rfl, List.getElem?_eq_getElem inside, ?_⟩
      exact (lists 0 _ (List.getElem?_eq_getElem inside) 0 (by omega) 4 (by omega)).1

/-- The first of two devices has no special prime and not all primes of the other digit. -/
theorem digit_tables_partial_two_devices :
    ∃ (placement : Placement) (tables : DigitTables),
      GenCryptoContextGPU false fivePrimes [0, 1] = .ok placement ∧
      (placement.host_constants_per_gpu [0, 1])[0]? = some tables ∧
      ¬(tables 0).Lists 4 (placement.InDigit 0 4) (placement.Outside 0 4) := by
  have built : (GenCryptoContextGPU false fivePrimes [0, 1]).toOption.map (fun placement =>
      (placement.chain, placement.total, (placement.host_constants_per_gpu [0, 1])[0]?.map
        fun tables => (List.range ((tables 0).num_primeid_digit_to 4)).map
          (tables 0).primeid_digit_to)) = some (5, 6, some [4]) := by decide
  cases accepted : GenCryptoContextGPU false fivePrimes [0, 1] with
  | error failure =>
      rw [accepted] at built
      cases built
  | ok placement =>
      rw [accepted] at built
      have facts := Option.some.inj built
      have chain : placement.chain = 5 := congrArg Prod.fst facts
      have total : placement.total = 6 := congrArg (fun fact => fact.2.1) facts
      have entries : (placement.host_constants_per_gpu [0, 1])[0]?.map (fun tables =>
          (List.range ((tables 0).num_primeid_digit_to 4)).map (tables 0).primeid_digit_to) =
          some [4] := congrArg (fun fact => fact.2.2) facts
      obtain ⟨tables, found, listed⟩ := Option.map_eq_some_iff.mp entries
      refine ⟨placement, tables, rfl, found, fun lists => ?_⟩
      -- the special prime is the fifth prime, and the only entry is the fourth
      obtain ⟨num, inside, same⟩ := (lists.target 5).mp (Or.inl ⟨by omega, by omega⟩)
      have entry : 5 ∈ (List.range ((tables 0).num_primeid_digit_to 4)).map
          (tables 0).primeid_digit_to :=
        List.mem_map.mpr ⟨num, List.mem_range.mpr inside, same⟩
      rw [listed] at entry
      revert entry
      decide

end Fideslib.Registry.Placement
