/-
This file proves that an accepted context gives each prime one place on its devices.
-/

import Fideslib.Registry.Placement

namespace Fideslib.Registry.Placement

open Intervals NestedTable

/-- A step of the construction that returns has returned from its first part. -/
theorem returned {First Result : Type} {first : Except Failure First}
    {next : First → Except Failure Result} {result : Result}
    (done : (first >>= next) = .ok result) : ∃ value, first = .ok value ∧ next value = .ok result := by
  cases first with
  | error failure => cases done
  | ok value => exact ⟨value, rfl, done⟩

section Chain

variable {devices size : Nat} {dnum : Int} {raw : Option RawParams}

/-- This is the record that the loop makes for a prime of the list. -/
def recordAt (dnum : Int) (raw : Option RawParams) (size : Nat) (primes : List PrimeRecord)
    (i : Nat) : LimbRecord :=
  ⟨i, limbType (primes.getD i {}), digitOf dnum raw size i (primes.getD i {})⟩

/-- The loop has given the first primes to the devices in turn. -/
def dealt (devices count : Nat) (record : Nat → LimbRecord) : List (List LimbRecord) :=
  (List.range devices).map fun device =>
    ((List.range count).filter fun i => i % devices = device).map record

/-- One more prime goes to the next device. -/
theorem dealt_succ (devices count : Nat) (record : Nat → LimbRecord) :
    (dealt devices count record).modify (count % devices) (· ++ [record count]) =
      dealt devices (count + 1) record := by
  refine List.ext_getElem (by simp [dealt]) fun device left right => ?_
  rw [List.getElem_modify]
  simp only [dealt, List.getElem_map, List.getElem_range, List.range_succ, List.filter_append,
    List.map_append]
  by_cases same : count % devices = device
  · rw [if_pos same]
    simp [same]
  · rw [if_neg same]
    simp [same]

/-- The loop keeps the digits inside their range and in ascending order. -/
theorem generateMetaFrom_spec {all : List PrimeRecord} {primes : List PrimeRecord} {i : Nat}
    {prev_digit_ : Int} {meta_ : List (List LimbRecord)} (rest : primes = all.drop i)
    (accepted : generateMetaFrom devices size dnum raw primes i prev_digit_
      (dealt devices i (recordAt dnum raw size all)) = .ok meta_) :
    meta_ = dealt devices (i + primes.length) (recordAt dnum raw size all) ∧
      (∀ j, i ≤ j → j < i + primes.length →
        prev_digit_ ≤ (recordAt dnum raw size all j).digit ∧
          0 ≤ (recordAt dnum raw size all j).digit ∧
          (recordAt dnum raw size all j).digit < dnum) ∧
      ∀ j k, i ≤ j → j ≤ k → k < i + primes.length →
        (recordAt dnum raw size all j).digit ≤ (recordAt dnum raw size all k).digit := by
  induction primes generalizing i prev_digit_ with
  | nil =>
      cases accepted
      refine ⟨rfl, fun j low high => ?_, fun j k low order high => ?_⟩ <;>
        · rw [List.length_nil] at high
          omega
  | cons prime primes ih =>
      have here : all[i]? = some prime := by
        have head := congrArg (fun list => list[0]?) rest
        simpa using head.symm
      have later : primes = all.drop (i + 1) := by
        have tail := congrArg List.tail rest
        rwa [List.tail_cons, List.tail_drop] at tail
      have record : recordAt dnum raw size all i =
          ⟨i, limbType prime, digitOf dnum raw size i prime⟩ := by
        rw [recordAt, List.getD_eq_getElem?_getD, here]
        rfl
      simp only [generateMetaFrom] at accepted
      split at accepted
      · cases accepted
      · rename_i bounds
        split at accepted
        · cases accepted
        · rw [← record, dealt_succ] at accepted
          obtain ⟨same, range, ascending⟩ := ih later accepted
          have digit : (recordAt dnum raw size all i).digit = digitOf dnum raw size i prime := by
            rw [record]
          rw [List.length_cons]
          refine ⟨by rw [same, show i + 1 + primes.length = i + (primes.length + 1) by omega],
            fun j low high => ?_, fun j k low order high => ?_⟩
          · rcases Nat.eq_or_lt_of_le low with rfl | below
            · omega
            · have bound := range j below (by omega)
              omega
          · rcases Nat.eq_or_lt_of_le low with rfl | below
            · rcases Nat.eq_or_lt_of_le order with rfl | strict
              · exact le_rfl
              · have bound := range k strict (by omega)
                omega
            · exact ascending j k below order (by omega)

/-- The dealt records are those of the first primes. -/
theorem mem_dealt (positive : 0 < devices) {count : Nat} {record : Nat → LimbRecord}
    {limb : LimbRecord} :
    limb ∈ (dealt devices count record).flatten ↔ ∃ i < count, record i = limb := by
  simp only [dealt, List.mem_flatten, List.mem_map, List.mem_range]
  constructor
  · rintro ⟨_, ⟨device, _, rfl⟩, inside⟩
    obtain ⟨i, listed, rfl⟩ := List.mem_map.mp inside
    exact ⟨i, List.mem_range.mp (List.mem_filter.mp listed).1, rfl⟩
  · rintro ⟨i, bound, rfl⟩
    refine ⟨_, ⟨i % devices, Nat.mod_lt _ positive, rfl⟩, List.mem_map_of_mem ?_⟩
    exact List.mem_filter.mpr ⟨List.mem_range.mpr bound, by simp⟩

/-- No prime is dealt twice. -/
theorem dealt_nodup {count : Nat} {record : Nat → LimbRecord} (own : ∀ i, (record i).id = i) :
    ((dealt devices count record).flatten.map LimbRecord.id).Nodup := by
  have ids : (dealt devices count record).flatten.map LimbRecord.id =
      (List.range devices).flatMap fun device =>
        (List.range count).filter fun i => i % devices = device := by
    rw [dealt, List.map_flatten, List.map_map, List.flatMap_def]
    congr 1
    refine List.map_congr_left fun device _ => ?_
    rw [Function.comp_apply, List.map_map]
    exact (List.map_congr_left fun i _ => own i).trans (List.map_id _)
  rw [ids, List.nodup_flatMap]
  refine ⟨fun device _ => List.nodup_range.filter _, ?_⟩
  refine List.nodup_range.imp fun {first second} different i left right => ?_
  have one := of_decide_eq_true (List.mem_filter.mp left).2
  have other := of_decide_eq_true (List.mem_filter.mp right).2
  exact different (one.symm.trans other)

end Chain

section Special

/-- The shares of the devices are the special records in their order. -/
theorem splitFrom_flatten (specialMeta : List LimbRecord) (devices init : Nat) :
    (splitFrom specialMeta (devices + 1) init).flatten = specialMeta.drop init := by
  induction devices generalizing init with
  | zero =>
      simp [splitFrom]
  | succ devices ih =>
      rw [splitFrom, List.flatten_cons, ih, ← List.drop_drop, List.take_append_drop]

theorem length_splitFrom (specialMeta : List LimbRecord) (devices init : Nat) :
    (splitFrom specialMeta devices init).length = devices := by
  induction devices generalizing init with
  | zero => rfl
  | succ devices ih => rw [splitFrom, List.length_cons, ih]

end Special

section Limbs

/-- The table of the limbs is filled where each record has a place in it. -/
theorem foldlM_writeLimb {writes : List ((Nat × Nat) × LimbRecord)} {res : List (Nat × Nat)}
    (inside : ∀ write ∈ writes, write.2.id < res.length) :
    writes.foldlM writeLimb res =
      .ok (fill (writes.map fun write => (write.2.id, write.1)) res) := by
  induction writes generalizing res with
  | nil => rfl
  | cons write writes ih =>
      have step : writeLimb res write = .ok (res.set write.2.id write.1) :=
        if_pos (inside write List.mem_cons_self)
      rw [List.foldlM_cons, step]
      refine ih fun other member => ?_
      rw [List.length_set]
      exact inside other (List.mem_cons_of_mem _ member)

/-- A copy of the matching records is the record that they all equal. -/
theorem foldl_matching {records : List LimbRecord} {i : Nat} {record : LimbRecord}
    (start : LimbRecord) (matching : ∀ l ∈ records, l.id = i → l = record)
    (found : start = record ∨ record ∈ records) (own : record.id = i) :
    records.foldl
      (fun kept l => if l.id = i then { id := i, type := l.type, digit := l.digit } else kept)
      start = record := by
  induction records generalizing start with
  | nil => exact found.resolve_right List.not_mem_nil
  | cons l records ih =>
      rw [List.foldl_cons]
      refine ih _ (fun other member => matching other (List.mem_cons_of_mem _ member)) ?_
      by_cases hit : l.id = i
      · left
        rw [if_pos hit, ← matching l List.mem_cons_self hit, ← hit]
      · rw [if_neg hit]
        rcases found with same | member
        · exact Or.inl same
        · rcases List.mem_cons.mp member with rfl | later
          · exact absurd own hit
          · exact Or.inr later

/-- A key that only one record has selects this record. -/
theorem filter_single {records : List LimbRecord} (distinct : (records.map LimbRecord.id).Nodup)
    {record : LimbRecord} (member : record ∈ records) :
    records.filter (fun l => l.id = record.id) = [record] := by
  induction records with
  | nil => cases member
  | cons l records ih =>
      rw [List.map_cons, List.nodup_cons] at distinct
      obtain ⟨fresh, later⟩ := distinct
      rcases List.mem_cons.mp member with rfl | rest
      · have none : records.filter (fun l => l.id = record.id) = [] := by
          rw [List.filter_eq_nil_iff]
          intro other listed same
          exact fresh (of_decide_eq_true same ▸ List.mem_map_of_mem listed)
        rw [List.filter_cons_of_pos (by simp), none]
      · have other : l.id ≠ record.id := fun same => fresh (same ▸ List.mem_map_of_mem rest)
        rw [List.filter_cons_of_neg (by simpa using other), ih later rest]

end Limbs

section Digits

variable {count : Nat} {record : Nat → LimbRecord}

/-- A number below the next one is below or equal. -/
theorem countP_below_succ (records : List LimbRecord) (d : Int) :
    (records.countP fun l => l.digit < d + 1) =
      (records.countP fun l => l.digit < d) + records.countP fun l => l.digit = d := by
  induction records with
  | nil => rfl
  | cons l records ih =>
      rw [List.countP_cons, List.countP_cons, List.countP_cons, ih]
      simp only [decide_eq_true_eq]
      split_ifs <;> omega

/-- Ascending digits are the intervals between the counts of the smaller ones. -/
theorem digit_interval (own : ∀ i, (record i).id = i)
    (ascending : ∀ i j, i ≤ j → j < count → (record i).digit ≤ (record j).digit) (d : Int) :
    (((List.range count).map record).filter fun l => l.digit = d).map LimbRecord.id =
      List.range' (((List.range count).map record).countP fun l => l.digit < d)
        (((List.range count).map record).countP fun l => l.digit = d) := by
  have below {bound : Int} {i : Nat} (inside : i < count) :
      (record i).digit < bound ↔
        i < ((List.range count).map record).countP fun l => l.digit < bound := by
    rw [List.countP_map]
    exact count_initial (fun i j order small less => lt_of_le_of_lt (ascending i j order small) less)
      inside
  have sum := countP_below_succ ((List.range count).map record) d
  have total : (((List.range count).map record).countP fun l => l.digit < d + 1) ≤ count := by
    refine List.countP_le_length.trans ?_
    rw [List.length_map, List.length_range]
  have ids : (((List.range count).map record).filter fun l => l.digit = d).map LimbRecord.id =
      (List.range count).filter fun i => (record i).digit = d := by
    rw [List.filter_map, List.map_map]
    exact (List.map_congr_left fun i _ => own i).trans (List.map_id _)
  have interval := filter_interval (((List.range count).map record).countP fun l => l.digit < d)
    (((List.range count).map record).countP fun l => l.digit = d) count
  rw [Nat.min_eq_left (by omega)] at interval
  rw [ids, ← interval]
  refine List.filter_congr fun i member => ?_
  have inside := List.mem_range.mp member
  have low := @below d i inside
  have high := @below (d + 1) i inside
  rw [decide_eq_decide]
  omega

end Digits

/-- These are the tables of the chain and of the special primes. -/
def rows (placement : Placement) (special : Bool) : List (List LimbRecord) :=
  if special then placement.splitSpecialMeta else placement.meta_

/-- The chain has this many primes. -/
def chain (placement : Placement) : Nat := (placement.L + 1).toNat

/-- The chain and the special primes together. -/
def total (placement : Placement) : Nat := (placement.L + 1 + placement.K).toNat

/-- Each prime has one place on the devices, and the tables of the places agree. -/
structure Sound (placement : Placement) (devices : Nat) : Prop where
  sizes : 0 ≤ placement.L + 1 ∧ 0 ≤ placement.K
  shared : placement.meta_.length = devices ∧ placement.splitSpecialMeta.length = devices
  placed : ∀ id, id < placement.total → ∃! place : Bool × Nat × Nat, ∃ record,
    entry (placement.rows place.1) place.2.1 place.2.2 = some record ∧ record.id = id
  known : ∀ special row place record, entry (placement.rows special) row place = some record →
    record.id < placement.total ∧ (special = true ↔ placement.chain ≤ record.id)
  inverse : placement.limbGPUid.length = placement.total ∧
    ∀ id row place, placement.limbGPUid[id]? = some (row, place) ↔
      ∃ record, entry (placement.rows (decide (placement.chain ≤ id))) row place = some record ∧
        record.id = id
  gathered : placement.gatherMeta.map LimbRecord.id = List.range placement.chain ∧
    ∀ record, record ∈ placement.gatherMeta ↔ record ∈ placement.meta_.flatten
  digits : (∀ record ∈ placement.gatherMeta, 0 ≤ record.digit ∧ record.digit < placement.dnum) ∧
    ∀ d : Int, ((placement.gatherMeta.filter fun l => l.digit = d).map LimbRecord.id) =
      List.range' (placement.gatherMeta.countP fun l => l.digit < d)
        (placement.gatherMeta.countP fun l => l.digit = d)
  decomposed : placement.decompMeta = List.replicate devices
    ((List.range placement.dnum.toNat).map fun (d : Nat) =>
      placement.gatherMeta.filter fun l => l.digit = (d : Int))

section Assembled

variable {param : Parameters} {devs : List Int} {placement : Placement}

/-- These facts about its parts describe what the constructor returns. -/
structure Parts (param : Parameters) (devs : List Int) (placement : Placement)
    (record : Nat → LimbRecord) (special : List LimbRecord) : Prop where
  L : placement.L = param.L
  sizes : 0 ≤ placement.L + 1 ∧ 0 ≤ placement.K
  own : ∀ i, (record i).id = i
  meta_ : placement.meta_ = dealt devs.length placement.chain record
  range : ∀ i, i < placement.chain → 0 ≤ (record i).digit ∧ (record i).digit < placement.dnum
  ascending : ∀ i j, i ≤ j → j < placement.chain → (record i).digit ≤ (record j).digit
  numbered : special.map LimbRecord.id = List.range' placement.chain placement.K.toNat
  split : placement.splitSpecialMeta = splitFrom special devs.length 0
  decompMeta : placement.decompMeta = generateDecompMeta placement.meta_
    (generateGPUdigits placement.dnum devs) placement.L
  gatherMeta : placement.gatherMeta = generateGatherMeta placement.meta_ placement.L
  limbGPUid : generateLimbGPUid placement.meta_ placement.L placement.splitSpecialMeta
    placement.K = .ok placement.limbGPUid

variable {record : Nat → LimbRecord} {special : List LimbRecord}
  (hasDevice : devs ≠ []) (parts : Parts param devs placement record special)

include hasDevice parts

theorem Parts.flatten_special : placement.splitSpecialMeta.flatten = special := by
  obtain ⟨first, rest, rfl⟩ := List.exists_cons_of_ne_nil hasDevice
  rw [parts.split, List.length_cons, splitFrom_flatten, List.drop_zero]

theorem Parts.mem_chain {limb : LimbRecord} :
    limb ∈ placement.meta_.flatten ↔ ∃ i < placement.chain, record i = limb := by
  rw [parts.meta_]
  exact mem_dealt (List.length_pos_iff.mpr hasDevice)

omit hasDevice in
theorem Parts.total_eq : placement.total = placement.chain + placement.K.toNat := by
  have sizes := parts.sizes
  unfold total chain
  omega

/-- The gathered records are the records of the primes in their order. -/
theorem Parts.gather_eq : placement.gatherMeta = (List.range placement.chain).map record := by
  rw [parts.gatherMeta, generateGatherMeta]
  refine List.map_congr_left fun i member => ?_
  have inside : i < placement.chain := List.mem_range.mp member
  refine foldl_matching _ (fun l listed same => ?_) (Or.inr ?_) (parts.own i)
  · obtain ⟨j, _, rfl⟩ := (parts.mem_chain hasDevice).mp listed
    rw [parts.own] at same
    rw [same]
  · exact (parts.mem_chain hasDevice).mpr ⟨i, inside, rfl⟩

/-- All records of the tables have distinct primes. -/
theorem Parts.distinct :
    (placement.meta_.flatten.map LimbRecord.id ++
      placement.splitSpecialMeta.flatten.map LimbRecord.id).Nodup := by
  rw [List.nodup_append]
  refine ⟨?_, ?_, ?_⟩
  · rw [parts.meta_]
    exact dealt_nodup parts.own
  · rw [parts.flatten_special hasDevice, parts.numbered]
    exact List.nodup_range'
  · intro a left b right
    obtain ⟨limb, listed, rfl⟩ := List.mem_map.mp left
    obtain ⟨i, inside, rfl⟩ := (parts.mem_chain hasDevice).mp listed
    rw [parts.flatten_special hasDevice, parts.numbered, List.mem_range'_1] at right
    rw [parts.own]
    omega

/-- A record of the tables is known by its prime. -/
theorem Parts.known (isSpecial : Bool) {row place : Nat} {limb : LimbRecord}
    (found : entry (placement.rows isSpecial) row place = some limb) :
    limb.id < placement.total ∧ (isSpecial = true ↔ placement.chain ≤ limb.id) := by
  have listed := mem_flatten_iff.mpr ⟨row, place, found⟩
  have total := parts.total_eq
  cases isSpecial with
  | false =>
      obtain ⟨i, inside, rfl⟩ := (parts.mem_chain hasDevice).mp listed
      rw [parts.own]
      simp only [Bool.false_eq_true, false_iff]
      omega
  | true =>
      have id := List.mem_map_of_mem (f := LimbRecord.id) listed
      rw [show placement.rows true = placement.splitSpecialMeta from rfl,
        parts.flatten_special hasDevice, parts.numbered, List.mem_range'_1] at id
      simp only [true_iff]
      omega

/-- Each prime of the context has a place in the tables. -/
theorem Parts.exists_place {id : Nat} (inside : id < placement.total) :
    ∃ row place limb, entry (placement.rows (decide (placement.chain ≤ id))) row place = some limb ∧
      limb.id = id := by
  have total := parts.total_eq
  by_cases special : placement.chain ≤ id
  · have listed : id ∈ placement.splitSpecialMeta.flatten.map LimbRecord.id := by
      rw [parts.flatten_special hasDevice, parts.numbered, List.mem_range'_1]
      omega
    obtain ⟨limb, member, same⟩ := List.mem_map.mp listed
    obtain ⟨row, place, found⟩ := mem_flatten_iff.mp member
    refine ⟨row, place, limb, ?_, same⟩
    rw [decide_eq_true special]
    exact found
  · have member := (parts.mem_chain hasDevice).mpr ⟨id, by omega, rfl⟩
    obtain ⟨row, place, found⟩ := mem_flatten_iff.mp member
    refine ⟨row, place, record id, ?_, parts.own id⟩
    rw [decide_eq_false special]
    exact found

/-- The places of a prime are one place of the tables. -/
theorem Parts.place_eq {isSpecial otherSpecial : Bool} {row place otherRow otherPlace : Nat}
    {first second : LimbRecord}
    (here : entry (placement.rows isSpecial) row place = some first)
    (there : entry (placement.rows otherSpecial) otherRow otherPlace = some second)
    (same : first.id = second.id) :
    isSpecial = otherSpecial ∧ row = otherRow ∧ place = otherPlace := by
  have left := (parts.known hasDevice isSpecial here).2
  have right := (parts.known hasDevice otherSpecial there).2
  have table : isSpecial = otherSpecial := by
    rw [Bool.eq_iff_iff, left, right, same]
  subst table
  have distinct := parts.distinct hasDevice
  rw [List.nodup_append] at distinct
  refine ⟨rfl, ?_⟩
  cases isSpecial with
  | false => exact place_unique distinct.1 here there same
  | true => exact place_unique distinct.2.1 here there same

/-- The table of the limbs inverts the tables of the devices. -/
theorem Parts.inverse : placement.limbGPUid.length = placement.total ∧
    ∀ id row place, placement.limbGPUid[id]? = some (row, place) ↔
      ∃ limb, entry (placement.rows (decide (placement.chain ≤ id))) row place = some limb ∧
        limb.id = id := by
  have filled := parts.limbGPUid
  set writes := places placement.meta_ ++ places placement.splitSpecialMeta with writes_def
  have listed {row place : Nat} {limb : LimbRecord} : ((row, place), limb) ∈ writes ↔
      ∃ isSpecial, entry (placement.rows isSpecial) row place = some limb := by
    rw [writes_def, List.mem_append, mem_places, mem_places, Bool.exists_bool]
    rfl
  have inside : ∀ write ∈ writes,
      write.2.id < (List.replicate (placement.L + 1 + placement.K).toNat (0, 0)).length := by
    rintro ⟨⟨row, place⟩, limb⟩ member
    obtain ⟨isSpecial, found⟩ := listed.mp member
    rw [List.length_replicate]
    exact (parts.known hasDevice isSpecial found).1
  have table : placement.limbGPUid = fill (writes.map fun write => (write.2.id, write.1))
      (List.replicate (placement.L + 1 + placement.K).toNat (0, 0)) := by
    rw [generateLimbGPUid, ← writes_def, foldlM_writeLimb inside] at filled
    exact (Except.ok.inj filled).symm
  have distinct : ((writes.map fun write => (write.2.id, write.1)).map Prod.fst).Nodup := by
    have ids : (writes.map fun write => (write.2.id, write.1)).map Prod.fst =
        placement.meta_.flatten.map LimbRecord.id ++
          placement.splitSpecialMeta.flatten.map LimbRecord.id := by
      rw [← places_items placement.meta_, ← places_items placement.splitSpecialMeta, List.map_map,
        writes_def, List.map_append, List.map_map, List.map_map]
      rfl
    rw [ids]
    exact parts.distinct hasDevice
  have stored {row place : Nat} {limb : LimbRecord} (isSpecial : Bool)
      (found : entry (placement.rows isSpecial) row place = some limb) :
      placement.limbGPUid[limb.id]? = some (row, place) := by
    have member : (limb.id, (row, place)) ∈ writes.map fun write => (write.2.id, write.1) :=
      List.mem_map.mpr ⟨((row, place), limb), listed.mpr ⟨isSpecial, found⟩, rfl⟩
    rw [table]
    exact fill_written distinct member (inside _ (listed.mpr ⟨isSpecial, found⟩))
  have length : placement.limbGPUid.length = placement.total := by
    rw [table, length_fill, List.length_replicate]
    rfl
  refine ⟨length, fun id row place => ⟨fun found => ?_, ?_⟩⟩
  · have bound := (List.getElem?_eq_some_iff.mp found).1
    obtain ⟨otherRow, otherPlace, limb, here, same⟩ :=
      parts.exists_place hasDevice (length ▸ bound)
    have other := stored _ here
    rw [same, found] at other
    cases other
    exact ⟨limb, here, same⟩
  · rintro ⟨limb, found, rfl⟩
    exact stored _ found

/-- A prime appends its record to the list of its digit. -/
theorem Parts.single_record {i : Nat} (inside : i < placement.chain) (d : Int) :
    placement.meta_.flatten.filter (fun l => l.id = i ∧ l.digit = d) =
      [record i].filter fun l => l.digit = d := by
  have distinct := (List.nodup_append.mp (parts.distinct hasDevice)).1
  have member := (parts.mem_chain hasDevice).mpr ⟨i, inside, rfl⟩
  have single := filter_single distinct member
  rw [parts.own] at single
  rw [← single, List.filter_filter]
  exact List.filter_congr fun l _ => by simp [and_comm]

/-- The digits of the decomposition are those of the gathered records. -/
theorem Parts.decomposed : placement.decompMeta = List.replicate devs.length
    ((List.range placement.dnum.toNat).map fun (d : Nat) =>
      placement.gatherMeta.filter fun l => l.digit = (d : Int)) := by
  have collect (d : Int) (ids : List Nat) (bounds : ∀ i ∈ ids, i < placement.chain) :
      (ids.flatMap fun primeid =>
        placement.meta_.flatten.filter fun l => l.id = primeid ∧ l.digit = d) =
      (ids.map record).filter fun l => l.digit = d := by
    induction ids with
    | nil => rfl
    | cons i ids ih =>
        rw [List.flatMap_cons, parts.single_record hasDevice (bounds i List.mem_cons_self),
          ih fun j member => bounds j (List.mem_cons_of_mem _ member), List.map_cons,
          ← List.filter_append, List.singleton_append]
  have digit (d : Int) := collect d (List.range placement.chain) fun i member =>
    List.mem_range.mp member
  rw [parts.decompMeta, parts.gather_eq hasDevice, generateDecompMeta, generateGPUdigits,
    List.map_map, List.eq_replicate_iff]
  refine ⟨List.length_map _, fun list member => ?_⟩
  obtain ⟨_, _, rfl⟩ := List.mem_map.mp member
  rw [Function.comp_apply, List.map_map]
  exact List.map_congr_left fun d _ => digit d

/-- What the constructor returns is sound. -/
theorem Parts.sound : placement.Sound devs.length where
  sizes := parts.sizes
  shared := by
    rw [parts.meta_, parts.split, length_splitFrom]
    simp [dealt]
  placed := by
    intro id inside
    obtain ⟨row, place, limb, found, same⟩ := parts.exists_place hasDevice inside
    refine ⟨(_, row, place), ⟨limb, found, same⟩, ?_⟩
    rintro ⟨otherSpecial, otherRow, otherPlace⟩ ⟨other, there, equal⟩
    obtain ⟨rfl, rfl, rfl⟩ :=
      parts.place_eq hasDevice there found (equal.trans same.symm)
    rfl
  known := fun isSpecial row place limb found => parts.known hasDevice isSpecial found
  inverse := parts.inverse hasDevice
  gathered := by
    rw [parts.gather_eq hasDevice, List.map_map]
    constructor
    · exact (List.map_congr_left fun i _ => parts.own i).trans (List.map_id _)
    · intro limb
      rw [parts.mem_chain hasDevice, List.mem_map]
      simp only [List.mem_range]
  digits := by
    rw [parts.gather_eq hasDevice]
    constructor
    · intro limb member
      obtain ⟨i, inside, rfl⟩ := List.mem_map.mp member
      exact parts.range i (List.mem_range.mp inside)
    · exact digit_interval parts.own parts.ascending
  decomposed := parts.decomposed hasDevice

end Assembled

section Constructor

/-- A list with a new size has that many entries. -/
theorem resize_length {count : Int} {primes resized : List PrimeRecord}
    (done : resize count primes = .ok resized) : 0 ≤ count ∧ resized.length = count.toNat := by
  unfold resize at done
  split at done
  · cases done
  · cases done
    simp only [List.length_append, List.length_take, List.length_replicate]
    omega

theorem lift_ok {Result : Type} {step : Except ContextError Result} {result : Result}
    (done : lift step = .ok result) : step = .ok result := by
  cases step with
  | error failure => cases done
  | ok value => cases done; rfl

/-- An accepted context has the parts of its tables. -/
theorem ContextData_parts {asserts : Bool} {param : Parameters} {devs : List Int}
    {placement : Placement} (hasDevice : devs ≠ [])
    (accepted : ContextData asserts param devs = .ok placement) :
    ∃ record special, Parts param devs placement record special := by
  unfold ContextData at accepted
  obtain ⟨⟨_, primes⟩, -, accepted⟩ := returned accepted
  obtain ⟨dnum, -, accepted⟩ := returned accepted
  obtain ⟨prime, resized, accepted⟩ := returned accepted
  obtain ⟨meta_, dealing, accepted⟩ := returned accepted
  obtain ⟨⟨K, Sprimes⟩, -, accepted⟩ := returned accepted
  obtain ⟨⟨_, filled⟩, -, accepted⟩ := returned accepted
  obtain ⟨specialPrime, specials, accepted⟩ := returned accepted
  obtain ⟨first, own, accepted⟩ := returned accepted
  obtain ⟨limbGPUid, limbs, accepted⟩ := returned accepted
  obtain ⟨_, -, accepted⟩ := returned accepted
  cases accepted
  obtain ⟨chainSize, primeLength⟩ := resize_length (lift_ok resized)
  obtain ⟨specialSize, specialLength⟩ := resize_length (lift_ok specials)
  have start : generateMetaFrom devs.length prime.length dnum param.raw prime 0 (-1)
      (dealt devs.length 0 (recordAt dnum param.raw prime.length prime)) = .ok meta_ := by
    have none : dealt devs.length 0 (recordAt dnum param.raw prime.length prime) =
        List.replicate devs.length [] := by
      rw [List.eq_replicate_iff]
      refine ⟨by simp [dealt], fun row member => ?_⟩
      obtain ⟨_, _, rfl⟩ := List.mem_map.mp member
      rfl
    rw [none]
    exact dealing
  obtain ⟨same, range, ascending⟩ := generateMetaFrom_spec (List.drop_zero).symm start
  rw [Nat.zero_add, primeLength] at same range ascending
  refine ⟨recordAt dnum param.raw (param.L + 1).toNat prime, first,
    { L := rfl
      sizes := ⟨chainSize, specialSize⟩
      own := fun i => rfl
      meta_ := same
      range := fun i inside => (range i (Nat.zero_le i) inside).2
      ascending := fun i j order inside => ascending i j (Nat.zero_le i) order inside
      numbered := ?_
      split := rfl
      decompMeta := rfl
      gatherMeta := rfl
      limbGPUid := limbs }⟩
  obtain ⟨device, rest, rfl⟩ := List.exists_cons_of_ne_nil hasDevice
  cases own
  rw [← specialLength]
  refine List.ext_getElem (by simp) fun k left right => ?_
  simp [chain]

end Constructor

/-- A chain of five primes with one special prime, which three devices share. -/
def fivePrimes : Parameters where
  logN := 4
  L := 4
  dnum := 2
  primes := [97, 193, 257, 353, 449].map fun p => { p := p, bits := 9 }
  Sprimes := [{ p := 40961, bits := 40 }]
  scalingTechnique := .FIXEDAUTO

end Fideslib.Registry.Placement
