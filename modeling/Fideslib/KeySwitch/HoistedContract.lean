/-
This file proves that the fused hoisted rotations give the results of the three steps.
-/

import Fideslib.KeySwitch.HoistedBatchLaw

namespace Fideslib.KeySwitch

open Constants (SetupConstants)
open LinearTransform (normalyzeIndex normalyzeIndex_range)

section Keys

variable {rot_keys : Nat → Option KeySwitchingKey} {N slots : Nat} {index : Int}
  {found : KeySwitchingKey × Nat}

/-- The key of a rotation belongs to an index of the full ring. -/
theorem GetRotationKey_spec (full : 0 < N / 2) (proper : 0 ≤ index ∧ index < (N / 2 : Nat))
    (ran : GetRotationKey rot_keys N index slots = some found) :
    rot_keys found.2 = some found.1 ∧ found.2 < N / 2 := by
  have plain : index ≠ 2 * N - 1 := by omega
  rw [GetRotationKey, if_neg plain] at ran
  obtain ⟨chosen, selected, key⟩ := Option.bind_eq_some_iff.mp ran
  obtain ⟨ksk, has, rfl⟩ := Option.map_eq_some_iff.mp key
  refine ⟨has, ?_⟩
  have candidate := List.mem_of_find?_eq_some selected
  have half : (N : Int) / 2 = ((N / 2 : Nat) : Int) := rfl
  have below : 0 ≤ chosen ∧ chosen < (N / 2 : Nat) := by
    rw [half] at candidate
    have same : index.tmod ((N / 2 : Nat) : Int) = index := Int.tmod_eq_of_lt proper.1 proper.2
    rw [same, if_neg (by omega)] at candidate
    rcases List.mem_cons.mp candidate with rfl | other
    · exact proper
    · split at other
      · obtain ⟨i, -, rfl⟩ := List.mem_map.mp other
        have sum : 0 ≤ index + (i : Int) * slots := by
          have product := Int.mul_nonneg (Int.natCast_nonneg i) (Int.natCast_nonneg slots)
          omega
        exact ⟨Int.tmod_nonneg _ sum, Int.tmod_lt_of_pos _ (by omega)⟩
      · exact absurd other List.not_mem_nil
  dsimp only
  omega

end Keys

/-- Each write of the fused kernel goes to the result of some rotation. -/
theorem hoistedRotateDotKSK_2_result {raw : RawParams} {digits : Digits raw} {cc : Constants}
    {table : PointerTable} {offset_c1 n num_d num_special : Nat} {c0 : RNSPoly}
    {indexes out : Nat → Nat} {c0_modup : Bool} {thread : Nat × Nat} {write : Cell × Nat}
    (mem : write ∈ hoistedRotateDotKSK_2_ cc digits table offset_c1 c0 n indexes out num_d
      num_special c0_modup thread) : ∃ j, j < n ∧ write.1.result = out j := by
  obtain ⟨j, range, entry⟩ := List.mem_flatMap.mp mem
  have result := fun component primeid pos idx =>
    (outputCell_fields cc component (out j) primeid pos idx).2.1
  simp only [List.mem_cons, List.not_mem_nil, or_false] at entry
  rcases entry with rfl | rfl
  · exact ⟨j, List.mem_range.mp range, result _ _ _ _⟩
  · exact ⟨j, List.mem_range.mp range, result _ _ _ _⟩

/-- The fused launch leaves the other results alone. -/
theorem hoistedRotationFused_other {raw : RawParams} (digits : Digits raw) (around : Surroundings)
    {rotated : List Rotated} (results : Nat → Component → RNSPoly) (source : DigitPoly)
    (c0 : RNSPoly) (level : Nat) {i : Nat} (other : i ∉ rotated.map Rotated.result)
    (component : Component) (id idx : Nat) :
    (hoistedRotationFused digits (SetupConstants raw) around rotated results source c0 level i
        component).word raw id idx = (results i component).word raw id idx := by
  have length : (SetupConstants raw).L = raw.L := rfl
  simp only [hoistedRotationFused]
  rw [if_neg other, load_word, Scatter.launch_untouched]
  · rw [store, outputCell, length, RNSPoly.word]
    split_ifs <;> first | rfl | contradiction
  · intro thread runs write mem same
    obtain ⟨j, below, result⟩ := hoistedRotateDotKSK_2_result mem
    rw [same, (outputCell_fields (SetupConstants raw) component i id id idx).2.1] at result
    apply other
    rw [result, ← @List.getElem_eq_getD _ _ j below default]
    exact List.mem_map_of_mem (List.getElem_mem below)

theorem generateSpecialLimbs_allocated {raw : RawParams} {poly : RNSPoly}
    (allocated : poly.specialLimbs = 0 ∨ poly.specialLimbs = raw.K) :
    (poly.generateSpecialLimbs (SetupConstants raw)).specialLimbs = raw.K := by
  rw [RNSPoly.generateSpecialLimbs]
  split_ifs with none_
  · rfl
  · exact allocated.resolve_left none_

/-- The fused launch extends the results of its rotations. -/
theorem hoistedRotationFused_extended {raw : RawParams} (digits : Digits raw)
    (around : Surroundings) {rotated : List Rotated} (results : Nat → Component → RNSPoly)
    (source : DigitPoly) (c0 : RNSPoly) (level : Nat) {i : Nat}
    (listed : i ∈ rotated.map Rotated.result) {component : Component}
    (allocated : (results i component).specialLimbs = 0 ∨
      (results i component).specialLimbs = raw.K) :
    let fused := hoistedRotationFused digits (SetupConstants raw) around rotated results source c0
      level i component
    fused.level = (results i component).level ∧ fused.Extended raw := by
  simp only [hoistedRotationFused]
  rw [if_pos listed]
  exact ⟨RNSPoly.generateSpecialLimbs_level _ _, rfl, generateSpecialLimbs_allocated allocated⟩

/-- A trivial rotation takes its operand to the extended basis. -/
theorem copyExtended_word {raw : RawParams} (generated : raw.Generated) {level : Nat}
    {poly : RNSPoly} (canonical : poly.Canonical raw) (atLevel : poly.level = level) (result : RNSPoly)
    {id idx : Nat} (live : raw.Live level id) (column : idx < raw.N) :
    ((result.copy (SetupConstants raw) poly).extend (SetupConstants raw)).word raw id idx =
      (poly.scaled raw id idx).val := by
  have positive : NeZero (raw.prime id) :=
    ⟨(generated.modulus (live.inside (atLevel ▸ canonical.level))).pos.ne'⟩
  have thread : idx < threads (SetupConstants raw) := by rwa [threads_eq]
  rw [RNSPoly.extend, RNSPoly.scaled]
  by_cases extended : poly.modUp = true
  · have small := canonical_word canonical (atLevel ▸ le_rfl) live column (Or.inl extended)
    have up : (result.copy (SetupConstants raw) poly).modUp = true := extended
    rw [if_pos up, if_pos extended, RNSPoly.generateSpecialLimbs_word, ← word_val small rfl]
    dsimp only [RNSPoly.copy, RNSPoly.word]
    by_cases regular : id < raw.L
    · rw [if_pos regular, if_pos regular, onLimbs_inside]
      rcases live with below | special <;> omega
    · rw [if_neg regular, if_neg regular, if_pos extended, onLimbs_inside]
      change id - raw.L < raw.K
      rcases live with below | special
      · have bounded := canonical.level
        omega
      · omega
  · have up : ¬(result.copy (SetupConstants raw) poly).modUp = true := extended
    rw [if_neg up, if_neg extended]
    dsimp only [RNSPoly.word]
    by_cases regular : id < raw.L
    · have small := canonical_word canonical (atLevel ▸ le_rfl) live column (Or.inr regular)
      rw [RNSPoly.word, if_pos regular] at small
      have below : id < poly.level + 1 := by
        rcases live with below | special <;> omega
      have own : (result.copy (SetupConstants raw) poly).limb id = poly.limb id :=
        onLimbs_inside _ _ below
      rw [if_pos regular, if_pos regular]
      have scaled : onLimbs (poly.level + 1) (fun i => launch (threads (SetupConstants raw))
          (scaleByP_ (SetupConstants raw) i ((result.copy (SetupConstants raw) poly).limb i))
          ((result.copy (SetupConstants raw) poly).limb i))
          (result.copy (SetupConstants raw) poly).limb id idx =
          scaleByP_ (SetupConstants raw) id (poly.limb id) idx := by
        rw [onLimbs_inside _ _ below, launch_inside _ _ thread, own]
      exact scaled.trans (word_val (scale_lt generated regular small)
        (scale_cast generated regular small))
    · rw [if_neg regular, if_neg regular]
      exact (ZMod.val_zero).symm

/-- The launches of a run have all their threads. -/
structure Surroundings.Complete (raw : RawParams) (level : Nat) (around : Surroundings) : Prop where
  fused : Covers around.fused (raw.K + (level + 1)) raw.N
  dot : ∀ i, Covers (around.dot i) (raw.K + (level + 1)) raw.N
  move : ∀ i component id, raw.Live level id → ∀ j, j ∈ around.move i component id ↔ j < raw.N

/-- The words of the operand and of its digits are reduced. -/
structure SlottedCiphertext.Hoistable {raw : RawParams} (digits : Digits raw)
    (ctxt : SlottedCiphertext) (digitLimbs : Nat → Nat → Limb) : Prop where
  c0 : ctxt.c0.Canonical raw
  c1 : ctxt.c1.Canonical raw
  level : ctxt.c0.level = ctxt.c1.level
  reduced : digits.Reduced ctxt.c1.level ⟨ctxt.c1.limb, digitLimbs⟩
  positive : 0 < ctxt.slots
  divides : ctxt.slots ∣ raw.N / 2

/-- Two results have the same reduced words on the chain and on the special primes. -/
def SameWords (raw : RawParams) (level : Nat) (fused unfused : Component → RNSPoly) : Prop :=
  ∀ component id slot, raw.Live level id → slot < raw.N →
    (fused component).word raw id slot = (unfused component).word raw id slot ∧
      (fused component).word raw id slot < raw.prime id

/-- The collected keys belong to different results and are keys of the context. -/
theorem collectKey_spec {raw : RawParams} {self : SlottedCiphertext}
    {rot_keys : Nat → Option KeySwitchingKey} {indexes : List Int} (full : 0 < raw.N / 2)
    (ranges : ∀ index ∈ indexes, 0 ≤ index ∧ index < (raw.N / 2 : Nat)) {rotated : List Rotated}
    (collected : (indexes.zipIdx.filter fun item => item.1 ≠ 0).mapM
      (collectKey (SetupConstants raw) rot_keys self) = some rotated) :
    (rotated.map Rotated.result).Nodup ∧ (∀ entry ∈ rotated,
      rot_keys entry.actual_index = some entry.ksk ∧ entry.actual_index < raw.N / 2) ∧
      ∀ i, i ∈ rotated.map Rotated.result ↔ ∃ index, (index, i) ∈ indexes.zipIdx ∧ index ≠ 0 := by
  have numbers : rotated.map Rotated.result =
      (indexes.zipIdx.filter fun item => item.1 ≠ 0).map Prod.snd := by
    apply PartialLists.mapM_map _ collected
    intro item entry made
    obtain ⟨pair, -, rfl⟩ := Option.map_eq_some_iff.mp made
    rfl
  refine ⟨?_, ?_, ?_⟩
  · have every : (indexes.zipIdx.map Prod.snd).Nodup := by
      rw [List.zipIdx_map_snd]
      exact List.nodup_range'
    rw [numbers]
    exact (List.filter_sublist.map Prod.snd).nodup every
  · intro entry mem
    obtain ⟨item, listed, made⟩ := (PartialLists.mem_mapM collected).mp mem
    obtain ⟨pair, got, rfl⟩ := Option.map_eq_some_iff.mp made
    have inside := (List.mem_filter.mp listed).1
    exact GetRotationKey_spec full (ranges _ (List.fst_mem_of_mem_zipIdx inside)) got
  · intro i
    rw [numbers, List.mem_map]
    constructor
    · rintro ⟨⟨index, _⟩, listed, rfl⟩
      obtain ⟨inside, proper⟩ := List.mem_filter.mp listed
      exact ⟨index, inside, of_decide_eq_true proper⟩
    · rintro ⟨index, inside, proper⟩
      exact ⟨(index, i), List.mem_filter.mpr ⟨inside, decide_eq_true proper⟩, rfl⟩

section Rotations

variable {raw : RawParams} (generated : raw.Generated) (narrow : raw.logN ≤ 30)
  {digits : Digits raw} {self : SlottedCiphertext} {digitLimbs : Nat → Nat → Limb}
  (hoistable : self.Hoistable digits digitLimbs) {rot_keys : Nat → Option KeySwitchingKey}
  (keysReduced : ∀ r ksk, rot_keys r = some ksk →
    ∀ component, digits.Reduced self.c1.level (ksk.half component))
  {results : Nat → Component → RNSPoly}
  (allocated : ∀ i component, (results i component).specialLimbs = 0 ∨
    (results i component).specialLimbs = raw.K)

include generated narrow hoistable keysReduced allocated

omit narrow keysReduced allocated in
/-- A trivial rotation leaves the same words in both paths. -/
theorem copied_sameWords {rotated : List Rotated} {around : Surroundings} {i : Nat}
    (other : i ∉ rotated.map Rotated.result) {copied : Nat → Component → RNSPoly}
    {result : Component → RNSPoly}
    (copies : copied i = copyExtended (SetupConstants raw) self result) :
    SameWords raw self.c1.level
      (hoistedRotationFused digits (SetupConstants raw) around rotated copied
        ⟨self.c1.limb, digitLimbs⟩ self.c0 self.c1.level i)
      (copyExtended (SetupConstants raw) self result) := by
  intro component id slot live inside
  have positive : NeZero (raw.prime id) :=
    ⟨(generated.modulus (live.inside hoistable.c1.level)).pos.ne'⟩
  rw [hoistedRotationFused_other digits around copied ⟨self.c1.limb, digitLimbs⟩ self.c0
    self.c1.level other component id slot, copies]
  refine ⟨rfl, ?_⟩
  cases component with
  | c0 =>
      have word := copyExtended_word generated hoistable.c0 hoistable.level (result .c0) live inside
      exact word.trans_lt (ZMod.val_lt _)
  | c1 =>
      have word := copyExtended_word generated hoistable.c1 rfl (result .c1) live inside
      exact word.trans_lt (ZMod.val_lt _)

/-- A proper rotation leaves the same words in both paths. -/
theorem rotated_sameWords {rotated : List Rotated} {around other : Surroundings}
    (complete : around.Complete raw self.c1.level) (otherComplete : other.Complete raw self.c1.level)
    (distinct : (rotated.map Rotated.result).Nodup)
    (found : ∀ entry ∈ rotated, rot_keys entry.actual_index = some entry.ksk ∧
      entry.actual_index < raw.N / 2) (copied : Nat → Component → RNSPoly) {entry : Rotated}
    (mem : entry ∈ rotated) :
    ∃ unfused, rotateUnfused digits (SetupConstants raw) other true entry.result self.c0
        ⟨self.c1.limb, digitLimbs⟩ entry.ksk entry.actual_index
        (prepare (SetupConstants raw) self.c0.level results entry.result) = some unfused ∧
      SameWords raw self.c1.level
        (hoistedRotationFused digits (SetupConstants raw) around rotated copied
          ⟨self.c1.limb, digitLimbs⟩ self.c0 self.c1.level entry.result) unfused := by
  obtain ⟨inverse, undoes⟩ := exists_undoes raw entry.actual_index
  have keys : ∀ entry ∈ rotated, ∀ component,
      digits.Reduced self.c1.level (entry.ksk.half component) := by
    intro entry mem
    exact keysReduced _ _ (found entry mem).1
  have rotation : ∀ entry ∈ rotated, entry.actual_index ≠ 2 * raw.N - 1 := by
    intro entry mem
    have below := (found entry mem).2
    omega
  have levels : ∀ component, (prepare (SetupConstants raw) self.c0.level results entry.result
      component).level = self.c1.level := fun _ => hoistable.level
  obtain ⟨unfused, ran, words⟩ := rotateUnfused_word generated hoistable.c1.level narrow
    hoistable.reduced (keys entry mem) hoistable.c0 hoistable.level.ge other entry.result levels
    (generateSpecialLimbs_allocated (allocated entry.result .c0)) (otherComplete.dot entry.result)
    (fun component id live => otherComplete.move entry.result component id live) undoes
  refine ⟨unfused, ran, ?_⟩
  intro component id slot live inside
  have positive : NeZero (raw.prime id) :=
    ⟨(generated.modulus (live.inside hoistable.c1.level)).pos.ne'⟩
  have fused := hoistedRotationFused_word generated narrow hoistable.c1.level hoistable.reduced
    hoistable.c0 hoistable.level.ge around distinct keys rotation complete.fused copied mem undoes
    component live inside
  rw [fused, (words component id slot live inside).2]
  exact ⟨rfl, ZMod.val_lt _⟩

/-- Each number of a result leads to the same words in both paths. -/
theorem rotateEach_sameWords {indexes : List Int} (full : 0 < raw.N / 2)
    (ranges : ∀ index ∈ indexes, 0 ≤ index ∧ index < (raw.N / 2 : Nat))
    (keys : ∀ item ∈ indexes.zipIdx, item.1 ≠ 0 →
      (GetRotationKey rot_keys raw.N item.1 self.slots).isSome) {rotated : List Rotated}
    (collected : (indexes.zipIdx.filter fun item => item.1 ≠ 0).mapM
      (collectKey (SetupConstants raw) rot_keys self) = some rotated) {around other : Surroundings}
    (complete : around.Complete raw self.c1.level) (otherComplete : other.Complete raw self.c1.level)
    {copied : Nat → Component → RNSPoly} (copies : ∀ i, indexes.getD i 0 = 0 → copied i =
      copyExtended (SetupConstants raw) self (prepare (SetupConstants raw) self.c0.level results i))
    {item : Int × Nat} (mem : item ∈ indexes.zipIdx) :
    ∃ unfused, rotateEach digits (SetupConstants raw) other rot_keys true self
        ⟨self.c1.limb, digitLimbs⟩ (prepare (SetupConstants raw) self.c0.level results) item =
          some unfused ∧
      SameWords raw self.c1.level (hoistedRotationFused digits (SetupConstants raw) around rotated
        copied ⟨self.c1.limb, digitLimbs⟩ self.c0 self.c1.level item.2) unfused := by
  obtain ⟨distinct, found, listed⟩ := collectKey_spec full ranges collected
  obtain ⟨index, i⟩ := item
  have place : indexes[i]? = some index := List.mem_zipIdx_iff_getElem?.mp mem
  by_cases trivial_ : index = 0
  · have read : indexes.getD i 0 = 0 := by
      rw [List.getD_eq_getElem?_getD, place, trivial_]
      rfl
    have unlisted : i ∉ rotated.map Rotated.result := by
      intro inside
      obtain ⟨own, member, proper⟩ := (listed i).mp inside
      have same : indexes[i]? = some own := List.mem_zipIdx_iff_getElem?.mp member
      rw [place, trivial_] at same
      exact proper (Option.some.inj same).symm
    exact ⟨_, if_pos trivial_, copied_sameWords generated hoistable unlisted (copies i read)⟩
  · obtain ⟨pair, key⟩ := Option.isSome_iff_exists.mp (keys (index, i) mem trivial_)
    have key' : GetRotationKey rot_keys (SetupConstants raw).N index self.slots = some pair := key
    have entry : (⟨i, pair.1, pair.2⟩ : Rotated) ∈ rotated := by
      apply (PartialLists.mem_mapM collected).mpr
      refine ⟨(index, i), List.mem_filter.mpr ⟨mem, decide_eq_true trivial_⟩, ?_⟩
      exact congrArg (Option.map _) key'
    obtain ⟨unfused, ran, same⟩ := rotated_sameWords generated narrow hoistable keysReduced
      allocated complete otherComplete distinct found copied entry
    refine ⟨unfused, ?_, same⟩
    rw [rotateEach, if_neg trivial_, key']
    exact ran

/-- A missing key stops both paths, and otherwise their results have the same words. -/
theorem rotate_hoisted_fused {around other : Surroundings}
    (complete : around.Complete raw self.c1.level) (otherComplete : other.Complete raw self.c1.level)
    (indexes_ : List Int) :
    Option.Rel (List.Forall₂ (SameWords raw self.c1.level))
      (rotate_hoisted digits (SetupConstants raw) around rot_keys true true self digitLimbs indexes_
        results)
      (rotate_hoisted digits (SetupConstants raw) other rot_keys true false self digitLimbs indexes_
        results) := by
  have half := whole_ring generated
  have full : 0 < raw.N / 2 := by
    have ring : 0 < raw.N := Nat.two_pow_pos raw.logN
    omega
  have isFused : ¬¬(true = true) := not_not.mpr rfl
  have isUnfused : ¬(false = true) := Bool.false_ne_true
  rw [rotate_hoisted, rotate_hoisted, if_neg isFused, if_pos isUnfused, grow_extended]
  have ranges : ∀ index ∈ indexes_.map fun i => normalyzeIndex i self.slots (SetupConstants raw).N,
      0 ≤ index ∧ index < (raw.N / 2 : Nat) := by
    intro index mem
    obtain ⟨given, -, rfl⟩ := List.mem_map.mp mem
    exact normalyzeIndex_range hoistable.positive hoistable.divides full given
  dsimp only
  generalize (indexes_.map fun i => normalyzeIndex i self.slots (SetupConstants raw).N) = indexes
    at ranges ⊢
  by_cases keys : ∀ item ∈ indexes.zipIdx, item.1 ≠ 0 →
      (GetRotationKey rot_keys raw.N item.1 self.slots).isSome
  · obtain ⟨rotated, collected⟩ := @PartialLists.mapM_succeeds (Int × Nat) Rotated
      (collectKey (SetupConstants raw) rot_keys self)
      (indexes.zipIdx.filter fun item => item.1 ≠ 0) (by
        intro item mem
        obtain ⟨inside, proper⟩ := List.mem_filter.mp mem
        have key := keys item inside (of_decide_eq_true proper)
        rw [collectKey, Option.isSome_map]
        exact key)
    obtain ⟨each, ran, same⟩ := PartialLists.mapM_zipIdx_forall₂ fun item mem =>
      rotateEach_sameWords generated narrow hoistable keysReduced allocated full ranges keys collected
        complete otherComplete (fun i zero => funext fun _ => if_pos zero) mem
    rw [ran, collected, Option.bind_some, PartialLists.mapM_zipIdx_eq_map fun item _ =>
      if_neg fun lowers => Bool.false_ne_true lowers.2.symm]
    exact Option.Rel.some same
  · push Not at keys
    obtain ⟨item, mem, proper, missing⟩ := keys
    have none_ : GetRotationKey rot_keys (SetupConstants raw).N item.1 self.slots = none :=
      Option.not_isSome_iff_eq_none.mp missing
    have stops : rotateEach digits (SetupConstants raw) other rot_keys true self
        ⟨self.c1.limb, digitLimbs⟩ (prepare (SetupConstants raw) self.c0.level results) item =
          none := by
      rw [rotateEach, if_neg proper, none_]
      rfl
    have collects : collectKey (SetupConstants raw) rot_keys self item = none := by
      rw [collectKey]
      exact Option.map_eq_none_iff.mpr none_
    have listed : item ∈ indexes.zipIdx.filter fun item => item.1 ≠ 0 :=
      List.mem_filter.mpr ⟨mem, decide_eq_true proper⟩
    rw [PartialLists.mapM_eq_none mem stops, PartialLists.mapM_eq_none listed collects]
    exact Option.Rel.none

end Rotations

end Fideslib.KeySwitch
