/-
This file says what a download and an upload keep of an extended polynomial.
-/

import Fideslib.Transfer.ExtendedRows

namespace Fideslib.Transfer

variable {Word : Type} {scheme : Scheme} {split : DeviceSplit scheme}

namespace DeviceSplit

/-- A prime of the chain stands where its place says. -/
theorem limbGPUid_spec (split : DeviceSplit scheme) {prime : Nat}
    (inside : prime < scheme.chain.length) :
    ∃ own, split.records[(split.limbGPUid prime).1]? = some own ∧
      own[(split.limbGPUid prime).2]? = some prime := by
  have listed : prime ∈ split.records.flatten :=
    split.shared.mem_iff.mpr (List.mem_range.mpr inside)
  obtain ⟨own, owner, member⟩ := List.mem_flatten.mp listed
  have found : split.records.findIdx (fun own => own.contains prime) < split.records.length :=
    List.findIdx_lt_length.mpr ⟨own, owner, by simpa using member⟩
  have holds := @List.findIdx_getElem _ (fun own : List Nat => own.contains prime)
    split.records found
  have device : (split.limbGPUid prime).1 =
      split.records.findIdx fun own => own.contains prime := rfl
  have there : (split.limbGPUid prime).2 =
      (split.records[split.records.findIdx fun own => own.contains prime]).idxOf prime := by
    simp only [limbGPUid, List.getD_eq_getElem?_getD, List.getElem?_eq_getElem found,
      Option.getD_some]
  rw [there, device]
  exact ⟨_, List.getElem?_eq_getElem found, List.getElem?_idxOf (by simpa using holds)⟩

/-- Two primes of the chain do not share a place. -/
theorem limbGPUid_injective (split : DeviceSplit scheme) {first second : Nat}
    (firstInside : first < scheme.chain.length) (secondInside : second < scheme.chain.length)
    (same : split.limbGPUid first = split.limbGPUid second) : first = second := by
  obtain ⟨own, device, place⟩ := split.limbGPUid_spec firstInside
  obtain ⟨own', device', place'⟩ := split.limbGPUid_spec secondInside
  rw [same] at device place
  rw [device] at device'
  cases device'
  rw [place] at place'
  exact Option.some.inj place'

/-- A prime up to the level lies within the limbs of its device. -/
theorem lt_getLimbSize (split : DeviceSplit scheme) {own : List Nat} {place prime : Nat}
    {level : Int} (device : own ∈ split.records) (there : own[place]? = some prime)
    (within : (prime : Int) ≤ level) (top : level < scheme.chain.length) :
    place < split.getLimbSize own level := by
  have ordered := split.ascending own device
  unfold getLimbSize
  simp only [show level ≠ scheme.chain.length by omega, if_false]
  clear device
  induction own generalizing place with
  | nil => cases there
  | cons head rest ih =>
      have headWithin : (head : Int) ≤ level := by
        cases place with
        | zero =>
            cases there
            exact within
        | succ place =>
            have later : prime ∈ rest := List.mem_of_getElem? there
            have less := (List.pairwise_cons.mp ordered).1 prime later
            omega
      rw [List.takeWhile_cons_of_pos (by simpa using headWithin), List.length_cons]
      cases place with
      | zero => exact Nat.succ_pos _
      | succ place =>
          exact Nat.succ_lt_succ (ih there (List.pairwise_cons.mp ordered).2)

end DeviceSplit

/-- A row as long as the limb replaces it. -/
theorem loadConvert_whole {row limb : List Word} (same : row.length = limb.length) :
    loadConvert row limb = some row := by
  unfold loadConvert
  rw [if_pos same.le, same, List.drop_length, List.append_nil]

namespace SplitPoly

/-- Every device has room for its primes, and all limbs have the same number of words. -/
structure Ready (split : DeviceSplit scheme) (regular words : Nat)
    (gpu : List (LimbPartition Word)) : Prop where
  devices : gpu.length = split.records.length
  enough : ∀ (device : Nat) own partition, split.records[device]? = some own →
    gpu[device]? = some partition → split.getLimbSize own (regular - 1) ≤ partition.limb.length
  limbWords : ∀ partition ∈ gpu, ∀ limb ∈ partition.limb, limb.length = words

/-- Every device has one special limb of the same number of words for each special prime. -/
def Specials (scheme : Scheme) (words : Nat) (gpu : List (LimbPartition Word)) : Prop :=
  ∀ limbs ∈ gpu.map LimbPartition.specialLimb,
    limbs.length = scheme.special.length ∧ ∀ limb ∈ limbs, limb.length = words

/-- The devices have all their special limbs or none. -/
def Allocated (scheme : Scheme) (words : Nat) (gpu : List (LimbPartition Word)) : Prop :=
  (∀ limbs ∈ gpu.map LimbPartition.specialLimb, limbs = []) ∨ Specials scheme words gpu

variable {regular words : Nat} {gpu : List (LimbPartition Word)}

/-- Every prime below the number of regular limbs has a limb. -/
theorem Ready.limbAt (ready : Ready split regular words gpu)
    (within : regular ≤ scheme.chain.length) {prime : Nat} (below : prime < regular) :
    ∃ partition limb, gpu[(split.limbGPUid prime).1]? = some partition ∧
      partition.limb[(split.limbGPUid prime).2]? = some limb ∧ limb.length = words := by
  obtain ⟨own, device, place⟩ := split.limbGPUid_spec (show prime < _ by omega)
  have there : (split.limbGPUid prime).1 < gpu.length := by
    rw [ready.devices]
    exact (List.getElem?_eq_some_iff.mp device).1
  have partition := List.getElem?_eq_getElem there
  have room : (split.limbGPUid prime).2 < gpu[(split.limbGPUid prime).1].limb.length :=
    lt_of_lt_of_le
      (split.lt_getLimbSize (List.mem_of_getElem? device) place
        (show (prime : Int) ≤ (regular : Int) - 1 by omega) (by omega))
      (ready.enough _ own _ device partition)
  exact ⟨_, _, partition, List.getElem?_eq_getElem room,
    ready.limbWords _ (List.getElem_mem there) _ (List.getElem_mem room)⟩

section Map

variable {visit : LimbPartition Word → LimbPartition Word}
  (keeps : ∀ partition, (visit partition).limb = partition.limb)

include keeps

/-- Devices that keep their regular limbs stay ready. -/
theorem Ready.map (ready : Ready split regular words gpu) :
    Ready split regular words (gpu.map visit) where
  devices := by
    rw [List.length_map]
    exact ready.devices
  enough := by
    intro device own partition recorded found
    rw [List.getElem?_map, Option.map_eq_some_iff] at found
    obtain ⟨before, there, rfl⟩ := found
    rw [keeps]
    exact ready.enough device own before recorded there
  limbWords := by
    intro partition member limb held
    obtain ⟨before, there, rfl⟩ := List.mem_map.mp member
    rw [keeps] at held
    exact ready.limbWords before there limb held

theorem limbAt_map (prime : Nat) :
    SplitPoly.limbAt split (gpu.map visit) prime = SplitPoly.limbAt split gpu prime := by
  unfold SplitPoly.limbAt
  rw [List.getElem?_map]
  cases gpu[(split.limbGPUid prime).1]? with
  | none => rfl
  | some partition => exact congrArg (·[(split.limbGPUid prime).2]?) (keeps partition)

end Map

/-- A row of a regular prime lands at its place and nowhere else. -/
theorem writeRegular_keeps (ready : Ready split regular words gpu)
    (within : regular ≤ scheme.chain.length) {prime : Nat} (below : prime < regular)
    {row : List Word} (whole : row.length = words) :
    ∃ after, writeRegular split prime row gpu = some after ∧ Ready split regular words after ∧
      SplitPoly.limbAt split after prime = some row ∧
      (∀ other < regular, other ≠ prime →
        SplitPoly.limbAt split after other = SplitPoly.limbAt split gpu other) ∧
      after.map LimbPartition.specialLimb = gpu.map LimbPartition.specialLimb := by
  obtain ⟨partition, limb, there, place, size⟩ := ready.limbAt within below
  have inside := (List.getElem?_eq_some_iff.mp there).1
  have room := (List.getElem?_eq_some_iff.mp place).1
  have loaded : partition.loadLimb (split.limbGPUid prime).2 row =
      some { partition with limb := partition.limb.set (split.limbGPUid prime).2 row } := by
    unfold LimbPartition.loadLimb
    rw [place]
    exact Option.bind_eq_some_iff.mpr ⟨limb, rfl,
      Option.bind_eq_some_iff.mpr ⟨row, loadConvert_whole (whole.trans size.symm), rfl⟩⟩
  refine ⟨_, Option.bind_eq_some_iff.mpr ⟨partition, there,
    Option.bind_eq_some_iff.mpr ⟨_, loaded, rfl⟩⟩, ⟨?_, ?_, ?_⟩, ?_, ?_, ?_⟩
  · rw [List.length_set]
    exact ready.devices
  · intro device own other recorded found
    rw [List.getElem?_set] at found
    split_ifs at found with same
    · cases found
      subst same
      rw [List.length_set]
      exact ready.enough _ own partition recorded there
    · exact ready.enough device own other recorded found
  · intro other member slot held
    rcases List.mem_or_eq_of_mem_set member with old | rfl
    · exact ready.limbWords other old slot held
    · rcases List.mem_or_eq_of_mem_set held with old | rfl
      · exact ready.limbWords partition (List.mem_of_getElem? there) slot old
      · exact whole
  · unfold SplitPoly.limbAt
    rw [List.getElem?_set_self inside]
    exact List.getElem?_set_self room
  · intro other otherBelow different
    unfold SplitPoly.limbAt
    by_cases device : (split.limbGPUid other).1 = (split.limbGPUid prime).1
    · have slot : (split.limbGPUid prime).2 ≠ (split.limbGPUid other).2 := by
        intro same
        exact different (split.limbGPUid_injective (by omega) (by omega)
          (Prod.ext device same.symm))
      rw [device, List.getElem?_set_self inside, there]
      exact List.getElem?_set_ne slot
    · rw [List.getElem?_set_ne fun same => device same.symm]
  · rw [List.map_set]
    apply List.ext_getElem?
    intro device
    rw [List.getElem?_set]
    split_ifs with same
    · subst same
      rw [List.getElem?_map, there]
      rfl
    · simp_all
    · rfl

/-- A row of a special prime lands at its place on every device and changes nothing else. -/
theorem writeSpecial_keeps (ready : Ready split regular words gpu)
    (special : Specials scheme words gpu) {prime : Nat} (below : prime < scheme.special.length)
    {row : List Word} (whole : row.length = words) :
    ∃ after, writeSpecial prime row gpu = some after ∧ Ready split regular words after ∧
      Specials scheme words after ∧
      (∀ device < split.records.length, specialAt after device prime = some row) ∧
      (∀ device other, other ≠ prime → specialAt after device other = specialAt gpu device other) ∧
      ∀ other, SplitPoly.limbAt split after other = SplitPoly.limbAt split gpu other := by
  have full : ∀ device ∈ gpu, device.specialLimb.length = scheme.special.length ∧
      ∀ limb ∈ device.specialLimb, limb.length = words := fun _ member =>
    special _ (List.mem_map_of_mem member)
  have wrote : writeSpecial prime row gpu = some (gpu.map fun device =>
      { device with specialLimb := device.specialLimb.set prime row }) := by
    apply PartialLists.mapM_eq_map
    intro device member
    have room : prime < device.specialLimb.length := (full device member).1 ▸ below
    have size := (full device member).2 _ (List.getElem_mem room)
    unfold LimbPartition.loadSpecial
    rw [List.getElem?_eq_getElem room]
    exact Option.bind_eq_some_iff.mpr ⟨_, rfl,
      Option.bind_eq_some_iff.mpr ⟨row, loadConvert_whole (whole.trans size.symm), rfl⟩⟩
  refine ⟨_, wrote, ready.map fun _ => rfl, ?_, ?_, ?_, limbAt_map fun _ => rfl⟩
  · intro limbs member
    rw [List.map_map] at member
    obtain ⟨before, there, rfl⟩ := List.mem_map.mp member
    refine ⟨List.length_set.trans (full before there).1, ?_⟩
    intro limb held
    rcases List.mem_or_eq_of_mem_set held with old | rfl
    · exact (full before there).2 limb old
    · exact whole
  · intro device inside
    have known : device < gpu.length := by
      rw [ready.devices]
      exact inside
    have there := List.getElem?_eq_getElem known
    have room : prime < gpu[device].specialLimb.length :=
      (full _ (List.mem_of_getElem? there)).1 ▸ below
    unfold specialAt
    rw [List.getElem?_map, there]
    exact List.getElem?_set_self room
  · intro device other different
    unfold specialAt
    rw [List.getElem?_map]
    cases gpu[device]? with
    | none => rfl
    | some before => exact List.getElem?_set_ne different.symm

/-- An extended polynomial has all its limbs, each with the same number of words. -/
structure Complete (split : DeviceSplit scheme) (regular words : Nat) (poly : SplitPoly Word) :
    Prop where
  level : poly.level = regular - 1
  positive : 0 < regular
  within : regular ≤ scheme.chain.length
  modUp : poly.modUp = true
  ready : Ready split regular words poly.gpu
  specials : Specials scheme words poly.gpu

/-- A fresh polynomial has no level and no flag, and what it still holds has full limbs. -/
structure Fresh (split : DeviceSplit scheme) (words : Nat) (poly : SplitPoly Word) : Prop where
  level : poly.level = -1
  modUp : poly.modUp = false
  devices : poly.gpu.length = split.records.length
  limbWords : ∀ partition ∈ poly.gpu, ∀ limb ∈ partition.limb, limb.length = words
  specials : Allocated scheme words poly.gpu

/-- The first device alone fills all rows of the special primes. -/
theorem storeSpecial_first (first : LimbPartition Word) (rest : List (LimbPartition Word))
    {count : Nat} (some_special : 0 < count) (enough : first.specialLimb.length = count) :
    storeSpecial count count 0 (first :: rest) = some first.specialLimb := by
  have rows : ((List.range (min count (count - 0))).mapM fun place => first.specialLimb[place]?) =
      some first.specialLimb := by
    rw [Nat.sub_zero, Nat.min_self, ← enough]
    have read := @PartialLists.mapM_eq_map _ _ (fun place => first.specialLimb[place]?)
      (fun place => (first.specialLimb[place]?).getD []) (List.range first.specialLimb.length)
      (by
        intro place member
        rw [List.getElem?_eq_getElem (List.mem_range.mp member)]
        rfl)
    rw [read]
    congr 1
    apply List.ext_getElem
    · simp
    · intro place left right
      simp [right]
  have others : storeSpecial count count (0 + first.specialLimb.length) rest = some [] := by
    cases rest with
    | nil => rfl
    | cons next rest =>
        rw [storeSpecial, if_neg (by omega)]
  rw [storeSpecial, if_pos some_special]
  exact Option.bind_eq_some_iff.mpr ⟨_, rows, Option.bind_eq_some_iff.mpr
    ⟨[], others, by rw [List.append_nil]⟩⟩

/-- The rows of an extended polynomial are its regular limbs and the special limbs of the first
device. -/
theorem Complete.store {poly : SplitPoly Word} (complete : Complete split regular words poly) :
    ∃ rows, poly.store split = some rows ∧ rows.length = regular + scheme.special.length ∧
      (∀ row ∈ rows, row.length = words) ∧
      (∀ prime < regular, rows[prime]? = SplitPoly.limbAt split poly.gpu prime) ∧
      ∀ prime < scheme.special.length, rows[regular + prime]? = specialAt poly.gpu 0 prime := by
  have devices : poly.gpu ≠ [] := by
    intro empty
    have counted := complete.ready.devices
    rw [empty, List.length_nil] at counted
    have listed := split.shared.length_eq
    rw [List.eq_nil_of_length_eq_zero counted.symm, List.length_range] at listed
    exact absurd listed scheme.chain_length_pos.ne
  obtain ⟨first, rest, gpu⟩ := List.exists_cons_of_ne_nil devices
  have firstThere : first ∈ poly.gpu := by
    rw [gpu]
    exact List.mem_cons_self
  have full := complete.specials _ (List.mem_map_of_mem firstThere)
  have special : storeSpecial scheme.special.length scheme.special.length 0 poly.gpu =
      some first.specialLimb := by
    rw [gpu]
    exact storeSpecial_first first rest scheme.special_length_pos full.1
  have regularRows : ((List.range regular).mapM fun prime =>
      SplitPoly.limbAt split poly.gpu prime) =
      some ((List.range regular).map fun prime =>
        (SplitPoly.limbAt split poly.gpu prime).getD []) := by
    apply PartialLists.mapM_eq_map
    intro prime member
    obtain ⟨partition, limb, there, place, -⟩ :=
      complete.ready.limbAt complete.within (List.mem_range.mp member)
    unfold SplitPoly.limbAt
    rw [there, Option.bind_eq_bind, Option.bind_some, place, Option.getD_some]
  have count : (poly.level + 1).toNat = regular := by
    rw [complete.level]
    omega
  have limbs : ∀ prime < regular, ∃ limb, SplitPoly.limbAt split poly.gpu prime = some limb ∧
      limb.length = words := by
    intro prime below
    obtain ⟨partition, limb, there, place, size⟩ := complete.ready.limbAt complete.within below
    refine ⟨limb, ?_, size⟩
    unfold SplitPoly.limbAt
    rw [there]
    exact place
  have nonnegative : ¬ poly.level < 0 := by
    have positive := complete.positive
    rw [complete.level]
    omega
  have stored : poly.store split = some (((List.range regular).map fun prime =>
      (SplitPoly.limbAt split poly.gpu prime).getD []).take regular ++ first.specialLimb) := by
    unfold SplitPoly.store
    simp only [complete.modUp, if_true, nonnegative, if_false, count, regularRows, special,
      Option.bind_eq_bind, Option.bind_some]
  refine ⟨_, stored, ?_, ?_, ?_, ?_⟩
  · simp [full.1]
  · intro row member
    rcases List.mem_append.mp member with here | here
    · obtain ⟨prime, below, rfl⟩ := List.mem_map.mp (List.mem_of_mem_take here)
      obtain ⟨limb, held, size⟩ := limbs prime (List.mem_range.mp below)
      rw [held]
      exact size
    · exact full.2 row here
  · intro prime below
    obtain ⟨limb, held, -⟩ := limbs prime below
    rw [List.getElem?_append_left (by simpa using below), List.getElem?_take_of_lt below,
      List.getElem?_map, List.getElem?_range below, Option.map_some, held, Option.getD_some]
  · intro prime below
    rw [List.getElem?_append_right (by simp)]
    unfold specialAt
    rw [gpu]
    simp

/-- A fresh polynomial grows to limbs of full length. -/
theorem Fresh.grow {target : SplitPoly Word} (fresh : Fresh split words target) {blank : List Word}
    (size : blank.length = words) (positive : 0 < regular) :
    (target.grow split blank (regular - 1)).level = regular - 1 ∧
      Ready split regular words (target.grow split blank (regular - 1)).gpu ∧
      Allocated scheme words (target.grow split blank (regular - 1)).gpu := by
  have low : ¬ (regular : Int) - 1 ≤ target.level := by
    rw [fresh.level]
    omega
  -- Both ways of allocation work device by device and leave the special limbs.
  have grown (visit : List Nat → LimbPartition Word → LimbPartition Word)
      (enough : ∀ own before, split.getLimbSize own (regular - 1) ≤ (visit own before).limb.length)
      (limbs : ∀ own before, (∀ limb ∈ before.limb, limb.length = words) →
        ∀ limb ∈ (visit own before).limb, limb.length = words)
      (special : ∀ own before, (visit own before).specialLimb = before.specialLimb) :
      Ready split regular words (List.zipWith visit split.records target.gpu) ∧
        Allocated scheme words (List.zipWith visit split.records target.gpu) := by
    have same : (List.zipWith visit split.records target.gpu).map LimbPartition.specialLimb =
        target.gpu.map LimbPartition.specialLimb := by
      apply List.ext_getElem
      · simp [fresh.devices]
      · intro device left right
        simp [special]
    refine ⟨⟨by simp [fresh.devices], ?_, ?_⟩, ?_⟩
    · intro device own partition recorded there
      obtain ⟨known, before, same, -, rfl⟩ := List.getElem?_zipWith_eq_some.mp there
      rw [recorded] at same
      cases same
      exact enough own before
    · intro partition member
      obtain ⟨device, there⟩ := List.getElem?_of_mem member
      obtain ⟨own, before, -, found, rfl⟩ := List.getElem?_zipWith_eq_some.mp there
      exact limbs own before (fresh.limbWords before (List.mem_of_getElem? found))
    · rw [Allocated, Specials, same]
      exact fresh.specials
  unfold SplitPoly.grow
  rw [if_neg low]
  split_ifs with buffered
  · refine ⟨rfl, grown (LimbPartition.generateLimbSingleMalloc blank) ?_ ?_ fun _ _ => rfl⟩
    · intro own before
      change _ ≤ (List.replicate own.length blank).length
      rw [List.length_replicate]
      exact (List.takeWhile_sublist _).length_le
    · intro own before _ limb member
      rw [List.eq_of_mem_replicate member]
      exact size
  · refine ⟨rfl, grown (LimbPartition.generateLimbToLevel split blank (regular - 1)) ?_ ?_
      fun _ _ => rfl⟩
    · intro own before
      change _ ≤ (before.limb ++ List.replicate _ blank).length
      rw [List.length_append, List.length_replicate]
      omega
    · intro own before full limb member
      rcases List.mem_append.mp member with old | new
      · exact full limb old
      · rw [List.eq_of_mem_replicate new]
        exact size

/-- A polynomial whose devices have all special limbs or none has them all afterwards. -/
theorem generateSpecialLimbs_keeps {poly : SplitPoly Word} {blank : List Word}
    (size : blank.length = words) (ready : Ready split regular words poly.gpu)
    (special : Allocated scheme words poly.gpu) :
    Ready split regular words (poly.generateSpecialLimbs scheme blank).gpu ∧
      Specials scheme words (poly.generateSpecialLimbs scheme blank).gpu ∧
      (∀ prime, SplitPoly.limbAt split (poly.generateSpecialLimbs scheme blank).gpu prime =
        SplitPoly.limbAt split poly.gpu prime) ∧
      (poly.generateSpecialLimbs scheme blank).level = poly.level := by
  unfold SplitPoly.generateSpecialLimbs
  split_ifs with present
  · refine ⟨ready, ?_, fun _ => rfl, rfl⟩
    rcases special with none | all
    · cases devices : poly.gpu with
      | nil => exact fun _ never => absurd never List.not_mem_nil
      | cons first rest =>
          rw [devices] at present none
          have empty : first.specialLimb = [] := none _ List.mem_cons_self
          rw [List.head?_cons, Option.any_some, empty] at present
          cases present
    · exact all
  · have keeps : ∀ before : LimbPartition Word,
        (before.generateSpecialLimb scheme.special.length blank).limb = before.limb := by
      intro before
      unfold LimbPartition.generateSpecialLimb
      split_ifs <;> rfl
    refine ⟨ready.map keeps, ?_, limbAt_map keeps, rfl⟩
    intro limbs member
    rw [List.map_map] at member
    obtain ⟨before, held, rfl⟩ := List.mem_map.mp member
    have listed : before.specialLimb ∈ poly.gpu.map LimbPartition.specialLimb :=
      List.mem_map_of_mem held
    rw [Function.comp_apply, LimbPartition.generateSpecialLimb]
    split_ifs with empty
    · refine ⟨List.length_replicate, ?_⟩
      intro limb inside
      rw [List.eq_of_mem_replicate inside]
      exact size
    · rcases special with none | all
      · exact absurd (by rw [none _ listed, List.length_nil]) empty
      · exact all _ listed

/-- The regular rows land at their places. -/
theorem loadRegular_keeps (ready : Ready split regular words gpu)
    (within : regular ≤ scheme.chain.length) {rows : List (List Word)}
    (count : rows.length = regular) (whole : ∀ row ∈ rows, row.length = words) :
    ∃ after, PartialLists.visitInOrder (writeRegular split) 0 rows gpu = some after ∧
      Ready split regular words after ∧
      (∀ prime < regular, SplitPoly.limbAt split after prime = rows[prime]?) ∧
      after.map LimbPartition.specialLimb = gpu.map LimbPartition.specialLimb := by
  obtain ⟨after, loaded, shape, limbs, special⟩ := @PartialLists.visitInOrder_succeeds _ _ (writeRegular split)
    (fun place before => Ready split regular words before ∧
      (∀ prime : Nat, prime < place → SplitPoly.limbAt split before prime = rows[prime]?) ∧
      before.map LimbPartition.specialLimb = gpu.map LimbPartition.specialLimb)
    rows 0 gpu ⟨ready, fun _ impossible => absurd impossible (Nat.not_lt_zero _), rfl⟩ (by
      rintro place row before there ⟨shape, limbs, special⟩
      have inside := (List.getElem?_eq_some_iff.mp there).1
      obtain ⟨after, wrote, kept, here, others, same⟩ := writeRegular_keeps shape within
        (show 0 + place < regular by omega) (whole row (List.mem_of_getElem? there))
      refine ⟨after, wrote, kept, ?_, same.trans special⟩
      intro prime below
      by_cases last : prime = 0 + place
      · rw [last, here, Nat.zero_add, there]
      · rw [others prime (by omega) last]
        exact limbs prime (by omega))
  exact ⟨after, loaded, shape, fun prime below => limbs prime (by omega), special⟩

/-- The special rows land at their places on every device. -/
theorem loadSpecial_keeps (ready : Ready split regular words gpu)
    (special : Specials scheme words gpu) {rows : List (List Word)}
    (count : rows.length = scheme.special.length) (whole : ∀ row ∈ rows, row.length = words) :
    ∃ after, PartialLists.visitInOrder writeSpecial 0 rows gpu = some after ∧
      (∀ device < split.records.length, ∀ prime < scheme.special.length,
        specialAt after device prime = rows[prime]?) ∧
      ∀ prime, SplitPoly.limbAt split after prime = SplitPoly.limbAt split gpu prime := by
  obtain ⟨after, loaded, -, -, written, limbs⟩ := @PartialLists.visitInOrder_succeeds _ _ writeSpecial
    (fun place before => Ready split regular words before ∧ Specials scheme words before ∧
      (∀ device < split.records.length, ∀ prime : Nat, prime < place →
        specialAt before device prime = rows[prime]?) ∧
      ∀ prime, SplitPoly.limbAt split before prime = SplitPoly.limbAt split gpu prime)
    rows 0 gpu ⟨ready, special, fun _ _ _ impossible => absurd impossible (Nat.not_lt_zero _),
      fun _ => rfl⟩ (by
      rintro place row before there ⟨shape, full, written, limbs⟩
      have inside := (List.getElem?_eq_some_iff.mp there).1
      obtain ⟨after, wrote, kept, stillFull, here, others, same⟩ := writeSpecial_keeps shape full
        (show 0 + place < scheme.special.length by omega)
        (whole row (List.mem_of_getElem? there))
      refine ⟨after, wrote, kept, stillFull, ?_, fun prime => (same prime).trans (limbs prime)⟩
      intro device known prime below
      by_cases last : prime = 0 + place
      · rw [last, here device known, Nat.zero_add, there]
      · rw [others device prime last]
        exact written device known prime (by omega))
  exact ⟨after, loaded, fun device known prime below => written device known prime (by omega),
    limbs⟩

/-- A download and an upload keep the regular limbs of an extended polynomial, give every device
the special limbs of the first one, raise the level when there is one special prime, and lose the
flag. -/
theorem extended_load_store {poly target : SplitPoly Word} {blank : List Word}
    (complete : Complete split regular words poly) (fresh : Fresh split words target)
    (size : blank.length = words) :
    ∃ rows loaded, poly.store split = some rows ∧
      target.load split blank rows (scheme.basis regular true) = some loaded ∧
      (∀ prime < regular,
        SplitPoly.limbAt split loaded.gpu prime = SplitPoly.limbAt split poly.gpu prime) ∧
      (∀ device < split.records.length, ∀ prime < scheme.special.length,
        specialAt loaded.gpu device prime = specialAt poly.gpu 0 prime) ∧
      loaded.level = (if scheme.special.length = 1 then poly.level + 1 else poly.level) ∧
      loaded.modUp = false := by
  obtain ⟨rows, stored, count, whole, limbs, specials⟩ := complete.store
  have counted : RnsPoly.limbsize scheme (scheme.basis regular true) rows.length = regular := by
    rw [count]
    exact @RnsPoly.limbsize_basis scheme regular true complete.within
  obtain ⟨level, shape, before⟩ := fresh.grow size complete.positive
  obtain ⟨written, wrote, kept, held, same⟩ := loadRegular_keeps shape complete.within
    (show (rows.take regular).length = regular by rw [List.length_take]; omega)
    fun row member => whole row (List.mem_of_mem_take member)
  let base : SplitPoly Word := { target.grow split blank (regular - 1) with gpu := written }
  have allocated : Allocated scheme words written := by
    rw [Allocated, Specials, same]
    exact before
  obtain ⟨ready, full, stay, sameLevel⟩ := @generateSpecialLimbs_keeps _ _ split regular words base
    blank size kept allocated
  obtain ⟨final, loaded, everywhere, kept'⟩ := loadSpecial_keeps ready full
    (show (rows.drop regular).length = scheme.special.length by rw [List.length_drop]; omega)
    fun row member => whole row (List.mem_of_mem_drop member)
  have chain : (scheme.basis regular true).take regular = scheme.chain.take regular := by
    rw [Scheme.basis, List.take_append_of_le_length (by simp [complete.within]), List.take_take,
      Nat.min_self]
  have others : ((scheme.basis regular true).take rows.length).drop regular = scheme.special := by
    rw [List.take_of_length_le (by rw [Scheme.basis_length complete.within, count]; rfl),
      Scheme.basis, List.drop_left' (by simp [complete.within])]
    rfl
  have more : regular < rows.length := by
    have some_special := scheme.special_length_pos
    omega
  have ran : target.load split blank rows (scheme.basis regular true) = some
      { base.generateSpecialLimbs scheme blank with
        level := if rows.length - regular = 1 then (base.generateSpecialLimbs scheme blank).level + 1
          else (base.generateSpecialLimbs scheme blank).level
        gpu := final } := by
    have low : ¬ (regular : Int) - 1 < (target.grow split blank (regular - 1)).level := by
      rw [level]
      exact lt_irrefl _
    unfold SplitPoly.load
    simp only [counted, if_neg low, if_pos chain]
    refine Option.bind_eq_some_iff.mpr ⟨written, wrote, ?_⟩
    simp only [if_pos more, others, List.isPrefixOf_iff_prefix, List.prefix_refl, if_true]
    exact Option.bind_eq_some_iff.mpr ⟨final, loaded, rfl⟩
  refine ⟨rows, _, stored, ran, ?_, ?_, ?_, ?_⟩
  · intro prime below
    change SplitPoly.limbAt split final prime = _
    rw [kept', stay]
    change SplitPoly.limbAt split written prime = _
    rw [held prime below, List.getElem?_take_of_lt below, limbs prime below]
  · intro device known prime below
    change specialAt final device prime = _
    rw [everywhere device known prime below, List.getElem?_drop, specials prime below]
  · have levels : (base.generateSpecialLimbs scheme blank).level = poly.level := by
      rw [sameLevel, complete.level]
      exact level
    change (if rows.length - regular = 1 then _ else _) = _
    rw [levels, count, Nat.add_sub_cancel_left]
  · change (base.generateSpecialLimbs scheme blank).modUp = false
    rw [generateSpecialLimbs_modUp]
    change (target.grow split blank (regular - 1)).modUp = false
    rw [grow_modUp, fresh.modUp]

end SplitPoly

/-- No download and upload restore an extended polynomial or ciphertext in a fresh object. All limbs
arrive, and it is the flag that is lost. -/
theorem extended_never_restored (split : DeviceSplit scheme) (blank : List Word)
    (moduli : List Nat) :
    (∀ poly target : SplitPoly Word, poly.modUp = true → target.modUp = false →
      ¬ SplitPoly.RoundTrips split blank moduli poly target) ∧
    (∀ (Factor : Type) (ct target : SplitCiphertext Word Factor), ct.c0.modUp = true →
      target.c0.modUp = false → ¬ SplitCiphertext.RoundTrips split blank moduli ct target) ∧
    ∀ (regular : Nat) (poly target : SplitPoly Word),
      SplitPoly.Complete split regular blank.length poly →
      SplitPoly.Fresh split blank.length target →
      ∃ rows loaded, poly.store split = some rows ∧
        target.load split blank rows (scheme.basis regular true) = some loaded ∧
        (∀ prime < regular,
          SplitPoly.limbAt split loaded.gpu prime = SplitPoly.limbAt split poly.gpu prime) ∧
        (∀ device < split.records.length, ∀ prime < scheme.special.length,
          SplitPoly.specialAt loaded.gpu device prime = SplitPoly.specialAt poly.gpu 0 prime) ∧
        loaded.level = (if scheme.special.length = 1 then poly.level + 1 else poly.level) ∧
        loaded.modUp = false := by
  refine ⟨?_, ?_, fun regular poly target complete fresh =>
    SplitPoly.extended_load_store complete fresh rfl⟩
  · rintro poly target extended fresh ⟨rows, loaded, stored, done, restores⟩
    have flag := SplitPoly.load_modUp done
    rw [restores.modUp, extended, fresh] at flag
    cases flag
  · rintro Factor ct target extended fresh ⟨raw, loaded, stored, done, restores, -⟩
    obtain ⟨c0, first, done⟩ := Option.bind_eq_some_iff.mp done
    obtain ⟨c1, second, done⟩ := Option.bind_eq_some_iff.mp done
    cases done
    have flag := SplitPoly.load_modUp first
    have kept : c0.modUp = ct.c0.modUp := restores.modUp
    rw [kept, extended, fresh] at flag
    cases flag

/-- This scheme has one regular prime and two special primes. -/
def twoSpecials : Scheme where
  chain := [17]
  special := [97, 113]
  distinct := by decide
  regularPrime := by decide
  specialPrime := by decide
  bounded := by decide

/-- One device has the only regular prime. -/
def oneDevice : DeviceSplit twoSpecials where
  records := [[0]]
  ascending := by decide
  shared := by decide
  flexibleAutoExt := false

/-- This extended polynomial has limbs of two words. -/
def smallExtendedPoly : SplitPoly Nat :=
  ⟨0, true, false, [⟨[[5, 6]], [[7, 8], [9, 10]]⟩]⟩

/-- A fresh polynomial of one device has no limbs. -/
def emptyPoly : SplitPoly Nat := ⟨-1, false, false, [⟨[], []⟩]⟩

theorem extended_never_restored_small :
    ¬ SplitPoly.RoundTrips oneDevice [0, 0] [17, 97, 113] smallExtendedPoly emptyPoly :=
  (extended_never_restored oneDevice [0, 0] [17, 97, 113]).1 _ _ rfl rfl

/-- The download of this polynomial is loaded with its level and all its limbs, but without its
flag. -/
theorem smallExtendedPoly_loses_flag :
    (smallExtendedPoly.store oneDevice).bind
        (fun rows => emptyPoly.load oneDevice [0, 0] rows [17, 97, 113]) =
      some { smallExtendedPoly with modUp := false } ∧
      ¬ SplitPoly.RoundTrips oneDevice [0, 0] [17, 97, 113] smallExtendedPoly emptyPoly := by
  constructor
  · decide
  · rintro ⟨rows, loaded, stored, done, restores⟩
    have flag := SplitPoly.load_modUp done
    rw [restores.modUp] at flag
    cases flag

end Fideslib.Transfer
