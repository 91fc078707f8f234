/-
This file proves what the fast rotations of one index and of a list return.
-/

import Fideslib.KeySwitch.FastRotation

namespace Fideslib.KeySwitch

open Constants (SetupConstants)
open LinearTransform (normalyzeIndex normalyzeIndex_range normalyzeIndex_eq_zero)

variable {Key Factor : Type} {raw : RawParams}

/-- The index needs a key, and the key that serves it. -/
def keyOf (rot_keys : Key → Nat → Option KeySwitchingKey) (ct : DeviceCiphertext Key Factor)
    (N : Nat) (index : Int) : Option (KeySwitchingKey × Nat) :=
  GetRotationKey (rot_keys ct.keyID) N (normalyzeIndex index ct.slots N) ct.slots

/-- A rotation is a result in the extended basis, and its mod-down is a regular result. -/
def Delivered (digits : Digits raw) (tables : ModUpTables) (ct : DeviceCiphertext Key Factor)
    (key : KeySwitchingKey × Nat) (ext : Bool) (out : DeviceCiphertext Key Factor) : Prop :=
  ∃ rotation aux, Rotation digits tables ct key rotation ∧
    (if ext then some rotation else rotation.modDown (SetupConstants raw) aux) = some out

theorem full_ring (generated : raw.Generated) : 0 < raw.N / 2 := by
  have half := whole_ring generated
  have ring : 0 < raw.N := Nat.two_pow_pos raw.logN
  omega

/-- A copy has the data of its operand and its words on the limbs in use. -/
structure Copied (raw : RawParams) (ct made : DeviceCiphertext Key Factor) : Prop where
  data : ct.withHalves made.half = made
  c0 : made.c0.Canonical raw
  c1 : made.c1.Canonical raw
  level0 : made.c0.level = ct.c1.level
  level1 : made.c1.level = ct.c1.level
  modUp : made.c1.modUp = ct.c1.modUp
  limb : ∀ i, i ≤ ct.c1.level → made.c1.limb i = ct.c1.limb i
  scaled : ∀ id idx, raw.Live ct.c1.level id → made.c0.scaled raw id idx = ct.c0.scaled raw id idx

section Copies

variable {ct self : DeviceCiphertext Key Factor}

theorem Copied.slots (copied : Copied raw ct self) : self.slots = ct.slots := by
  rw [← copied.data]
  rfl

theorem Copied.keyID (copied : Copied raw ct self) : self.keyID = ct.keyID := by
  rw [← copied.data]
  rfl

theorem copied_copy (rotatable : ct.Rotatable raw)
    {halves : Component → RNSPoly} (allocated : ∀ component, (halves component).specialLimbs = 0 ∨
      (halves component).specialLimbs = raw.K) :
    Copied raw ct (ct.copy (SetupConstants raw) halves) where
  data := rfl
  c0 := copy_canonical _ rotatable.c0 (allocated .c0)
  c1 := copy_canonical _ rotatable.c1 (allocated .c1)
  level0 := rotatable.level
  level1 := rfl
  modUp := rfl
  limb := fun _ inside => copy_limb _ inside
  scaled := fun _ _ live => copy_scaled _ (rotatable.level ▸ live) rotatable.c0.level

/-- The copies of an operand own all special limbs or none. -/
theorem copy_allocated (rotatable : ct.Rotatable raw) {scratch : Scratch}
    (ready : scratch.Ready raw ct.c1.level) (i : Nat) (component : Component) :
    ((ct.copy (SetupConstants raw) (scratch.auxilarPoly i)).half component).specialLimbs = 0 ∨
      ((ct.copy (SetupConstants raw) (scratch.auxilarPoly i)).half component).specialLimbs =
        raw.K := by
  cases component with
  | c0 => exact (copy_canonical _ rotatable.c0 (ready.auxilarPoly i .c0)).allocated
  | c1 => exact (copy_canonical _ rotatable.c1 (ready.auxilarPoly i .c1)).allocated

/-- The written results are the hoisted ones and the copies for the index zero. -/
theorem writeResults_forall₂ {Result : Type} {related : Int → Result → Prop}
    {items : List (Int × Result)} {hoisted : List Result}
    (rotated : List.Forall₂ related ((items.filter fun item => item.1 ≠ 0).map Prod.fst) hoisted)
    (zeros : ∀ item ∈ items, item.1 = 0 → related item.1 item.2) :
    List.Forall₂ related (items.map Prod.fst) (writeResults items hoisted) := by
  induction items generalizing hoisted with
  | nil => exact List.Forall₂.nil
  | cons item rest ih =>
      obtain ⟨index, copy⟩ := item
      have later : ∀ item ∈ rest, item.1 = 0 → related item.1 item.2 := fun item mem =>
        zeros item (List.mem_cons_of_mem _ mem)
      rw [writeResults, List.map_cons]
      by_cases zero : index = 0
      · rw [List.filter_cons_of_neg (by simpa using zero)] at rotated
        rw [if_pos zero]
        exact List.Forall₂.cons (zeros _ List.mem_cons_self zero) (ih rotated later)
      · rw [List.filter_cons_of_pos (by simpa using zero), List.map_cons] at rotated
        rw [if_neg zero]
        cases rotated with
        | cons now others => exact List.Forall₂.cons now (ih others later)

end Copies

section Single

variable (generated : raw.Generated) (narrow : raw.logN ≤ 30) {digits : Digits raw}
  {tables : ModUpTables} {rot_keys : Key → Nat → Option KeySwitchingKey}
  {ct self : DeviceCiphertext Key Factor} (rotatable : ct.Rotatable raw)
  (keysReduced : ∀ r ksk, rot_keys ct.keyID r = some ksk →
    ∀ component, digits.Reduced ct.c1.level (ksk.half component))

include generated rotatable

/-- The key of an index is stored under a rotation of the ring. -/
theorem keyOf_spec {index : Int} {key : KeySwitchingKey × Nat}
    (found : keyOf rot_keys ct raw.N index = some key) :
    rot_keys ct.keyID key.2 = some key.1 ∧ key.2 < raw.N / 2 :=
  GetRotationKey_spec (full_ring generated)
    (normalyzeIndex_range rotatable.positive rotatable.divides (full_ring generated) index) found

theorem Delivered.same {key : KeySwitchingKey × Nat} {ext : Bool}
    {first second : DeviceCiphertext Key Factor} (left : Delivered digits tables ct key ext first)
    (right : Delivered digits tables ct key ext second) : Same raw first second := by
  obtain ⟨one, aux, rotationOne, ranOne⟩ := left
  obtain ⟨two, other, rotationTwo, ranTwo⟩ := right
  cases ext with
  | true =>
      obtain rfl := Option.some.inj ranOne
      obtain rfl := Option.some.inj ranTwo
      exact rotationOne.same rotationTwo
  | false =>
      exact rotationOne.modDown_same generated rotatable.c1.level rotationTwo ranOne ranTwo

omit generated rotatable in
/-- A trivial index, an extended operand or a missing key stops a single rotation. -/
theorem rotate_fails (copied : Copied raw ct self) (scratch : Scratch) {index : Int} (moddown : Bool)
    (fails : normalyzeIndex index ct.slots raw.N = 0 ∨ ct.c1.modUp = true ∨
      keyOf rot_keys ct raw.N index = none) :
    self.rotate (SetupConstants raw) digits tables rot_keys scratch index moddown = none := by
  rw [DeviceCiphertext.rotate]
  by_cases passes : normalyzeIndex index self.slots (SetupConstants raw).N ≠ 0 ∧
      self.c1.modUp = false
  · have missing : GetRotationKey (rot_keys self.keyID) (SetupConstants raw).N
        (normalyzeIndex index self.slots (SetupConstants raw).N) self.slots = none := by
      rw [copied.slots, copied.modUp] at passes
      rw [copied.keyID, copied.slots]
      rcases fails with trivial_ | extended | missing
      · exact absurd trivial_ passes.1
      · exact absurd (extended.symm.trans passes.2) Bool.false_ne_true.symm
      · exact missing
    rw [if_pos passes]
    simp only [missing, Option.bind_eq_bind, Option.bind_none]
  · rw [if_neg passes]

include narrow keysReduced

/-- A single rotation returns for a proper index, a regular operand and a key. -/
theorem rotate_returns (copied : Copied raw ct self) {scratch : Scratch}
    (ready : scratch.Ready raw ct.c1.level) {index : Int} (moddown : Bool)
    (proper : normalyzeIndex index ct.slots raw.N ≠ 0) (regular : ct.c1.modUp = false)
    {key : KeySwitchingKey × Nat} (found : keyOf rot_keys ct raw.N index = some key) :
    ∃ out, self.rotate (SetupConstants raw) digits tables rot_keys scratch index moddown =
        some out ∧ Delivered digits tables ct key (!moddown) out := by
  obtain ⟨stored, below⟩ := keyOf_spec generated rotatable found
  have level : (scratch.keySwitchAux.copy (SetupConstants raw) self.c1).level = ct.c1.level :=
    copied.level1
  have rows : ∀ i, i ≤ ct.c1.level →
      (scratch.keySwitchAux.copy (SetupConstants raw) self.c1).limb i = ct.c1.limb i := by
    intro i inside
    rw [copy_limb _ (copied.level1 ▸ inside)]
    exact copied.limb i inside
  have levels : ∀ component, ((fun _ => self.half : Nat → Component → RNSPoly) 0 component).level =
      ct.c1.level := by
    intro component
    cases component with
    | c0 => exact copied.level0
    | c1 => exact copied.level1
  have allocated : ∀ component, ((fun _ => self.half : Nat → Component → RNSPoly) 0
      component).specialLimbs = 0 ∨ ((fun _ => self.half : Nat → Component → RNSPoly) 0
        component).specialLimbs = raw.K := by
    intro component
    cases component with
    | c0 => exact copied.c0.allocated
    | c1 => exact copied.c1.allocated
  have distinct : (([⟨0, key.1, key.2⟩] : List Rotated).map Rotated.result).Nodup :=
    List.nodup_singleton 0
  have only : ∀ entry ∈ [(⟨0, key.1, key.2⟩ : Rotated)], entry = ⟨0, key.1, key.2⟩ := fun entry mem =>
    List.mem_singleton.mp mem
  have rotation : Rotation digits tables ct key (ct.withHalves (hoistedRotationFused digits
      (SetupConstants raw) scratch.around [⟨0, key.1, key.2⟩] (fun _ => self.half)
      ⟨(scratch.keySwitchAux.copy (SetupConstants raw) self.c1).limb,
        (scratch.keySwitchAux.copy (SetupConstants raw) self.c1).modup (SetupConstants raw) digits
          tables scratch.GATHERlimb scratch.DIGITlimb⟩
      (scratch.around.aux2.copy (SetupConstants raw) self.c0) ct.c1.level 0)) :=
    fused_rotation generated narrow rotatable ready.fused distinct
    (fun entry mem => only entry mem ▸ keysReduced _ _ stored)
    (fun entry mem => only entry mem ▸ below)
    (fun i inside id live idx column => operand_digitsOf generated digits tables rotatable.c1.level
      level rows rows scratch.GATHERlimb scratch.DIGITlimb inside live column)
    (copy_canonical scratch.around.aux2 copied.c0 ready.aux2) copied.level0
    (fun id idx live => (copy_scaled _ (copied.level0 ▸ live) copied.c0.level).trans
      (copied.scaled id idx live))
    (List.mem_singleton_self _) levels allocated
  have passes : normalyzeIndex index self.slots (SetupConstants raw).N ≠ 0 ∧
      self.c1.modUp = false := by
    rw [copied.slots, copied.modUp]
    exact ⟨proper, regular⟩
  have own : GetRotationKey (rot_keys self.keyID) (SetupConstants raw).N
      (normalyzeIndex index self.slots (SetupConstants raw).N) self.slots = some key := by
    rw [copied.keyID, copied.slots]
    exact found
  rw [DeviceCiphertext.rotate, if_pos passes]
  have moved : ∀ halves, self.withHalves halves = ct.withHalves halves := by
    intro halves
    rw [← copied.data]
    rfl
  simp only [own, Option.bind_eq_bind, Option.bind_some, moved, level]
  cases moddown with
  | false => exact ⟨_, rfl, _, fun _ _ _ => 0, rotation, rfl⟩
  | true =>
      obtain ⟨out, ran, -⟩ := rotation.modDown generated rotatable.c1.level (scratch.around.moddownAux 0)
      exact ⟨out, ran, _, scratch.around.moddownAux 0, rotation, ran⟩

omit generated narrow keysReduced in
theorem copied_shape {results : Nat → Component → RNSPoly}
    (allocated : ∀ i component, (results i component).specialLimbs = 0 ∨
      (results i component).specialLimbs = raw.K) (ext : Bool) {indexes : List Int} {i : Nat}
    (proper : indexes.getD i 0 ≠ 0) (component : Component) :
    (ct.copied (SetupConstants raw) indexes results ext i component).level = ct.c1.level ∧
      ((ct.copied (SetupConstants raw) indexes results ext i component).specialLimbs = 0 ∨
        (ct.copied (SetupConstants raw) indexes results ext i component).specialLimbs = raw.K) := by
  rw [DeviceCiphertext.copied, if_neg proper, grow]
  cases ext with
  | true => exact ⟨rotatable.level, Or.inr (generateSpecialLimbs_allocated (allocated i component))⟩
  | false => exact ⟨rotatable.level, allocated i component⟩

/-- The launch of the hoisted rotations leaves a rotation for each of its keys. -/
theorem hoisted_rotation {scratch : Scratch} (ready : scratch.Ready raw ct.c1.level)
    {results : Nat → Component → RNSPoly}
    (allocated : ∀ i component, (results i component).specialLimbs = 0 ∨
      (results i component).specialLimbs = raw.K) (ext : Bool) {indexes : List Int}
    {rotated : List Rotated} (distinct : (rotated.map Rotated.result).Nodup)
    (stored : ∀ entry ∈ rotated, rot_keys ct.keyID entry.actual_index = some entry.ksk ∧
      entry.actual_index < raw.N / 2) {entry : Rotated} (mem : entry ∈ rotated)
    (proper : indexes.getD entry.result 0 ≠ 0) :
    Rotation digits tables ct (entry.ksk, entry.actual_index) (ct.withHalves
      (hoistedRotationFused digits (SetupConstants raw) scratch.around rotated
        (ct.copied (SetupConstants raw) indexes results ext)
        (ct.hoistedSource (SetupConstants raw) digits tables scratch) ct.c0 ct.c1.level
        entry.result)) := by
  have rows : ∀ i, i ≤ ct.c1.level →
      (scratch.keySwitchAux.copy (SetupConstants raw) ct.c1).limb i = ct.c1.limb i := fun i inside =>
    copy_limb _ inside
  have level : (scratch.keySwitchAux.copy (SetupConstants raw) ct.c1).level = ct.c1.level := rfl
  exact fused_rotation generated narrow rotatable ready.fused distinct
    (fun other member => keysReduced _ _ (stored other member).1)
    (fun other member => (stored other member).2)
    (fun i inside id live idx column => operand_digitsOf generated digits tables
      rotatable.c1.level level rows (fun _ _ => rfl) scratch.GATHERlimb scratch.DIGITlimb inside live
      column)
    rotatable.c0 rotatable.level (fun _ _ _ => rfl) mem
    (fun component => (copied_shape rotatable allocated ext proper component).1)
    fun component => (copied_shape rotatable allocated ext proper component).2

/-- The hoisted rotations deliver a rotation for each index that is not trivial. -/
theorem rotate_hoisted_returns {scratch : Scratch} (ready : scratch.Ready raw ct.c1.level)
    {results : Nat → Component → RNSPoly}
    (allocated : ∀ i component, (results i component).specialLimbs = 0 ∨
      (results i component).specialLimbs = raw.K) (ext : Bool) {indexes_ : List Int}
    (keys : ∀ index ∈ indexes_, normalyzeIndex index ct.slots raw.N ≠ 0 →
      (keyOf rot_keys ct raw.N index).isSome) :
    ∃ outs, ct.rotate_hoisted (SetupConstants raw) digits tables rot_keys scratch indexes_ results
        ext = some outs ∧
      List.Forall₂ (fun index out => normalyzeIndex index ct.slots raw.N ≠ 0 →
        ∃ key, keyOf rot_keys ct raw.N index = some key ∧ Delivered digits tables ct key ext out)
        indexes_ outs := by
  have full := full_ring generated
  rw [DeviceCiphertext.rotate_hoisted]
  set indexes := indexes_.map fun i => normalyzeIndex i ct.slots (SetupConstants raw).N
    with indexes_def
  have ranges : ∀ index ∈ indexes, 0 ≤ index ∧ index < (raw.N / 2 : Nat) := by
    intro index mem
    obtain ⟨given, -, rfl⟩ := List.mem_map.mp mem
    exact normalyzeIndex_range rotatable.positive rotatable.divides full given
  have found : ∀ index ∈ indexes, index ≠ 0 →
      (GetRotationKey (rot_keys ct.keyID) raw.N index ct.slots).isSome := by
    intro index mem proper
    obtain ⟨given, listed, rfl⟩ := List.mem_map.mp mem
    exact keys given listed proper
  obtain ⟨rotated, collected⟩ := @PartialLists.mapM_succeeds (Int × Nat) Rotated
    (collectKey (SetupConstants raw) (rot_keys ct.keyID) ct.toSlottedCiphertext)
    (indexes.zipIdx.filter fun item => item.1 ≠ 0) (by
      intro item mem
      obtain ⟨inside, proper⟩ := List.mem_filter.mp mem
      have key := found item.1 (List.fst_mem_of_mem_zipIdx inside) (of_decide_eq_true proper)
      rw [collectKey, Option.isSome_map]
      exact key)
  obtain ⟨distinct, stored, -⟩ := collectKey_spec full ranges collected
  have visits : ∀ item ∈ indexes.zipIdx, ∃ out,
      (if item.1 ≠ 0 ∧ ext = false then
        (ct.withHalves (hoistedRotationFused digits (SetupConstants raw) scratch.around rotated
          (ct.copied (SetupConstants raw) indexes results ext)
          (ct.hoistedSource (SetupConstants raw) digits tables scratch) ct.c0 ct.c1.level
          item.2)).modDown (SetupConstants raw) (scratch.around.moddownAux item.2)
      else some (ct.withHalves (hoistedRotationFused digits (SetupConstants raw) scratch.around rotated
        (ct.copied (SetupConstants raw) indexes results ext)
        (ct.hoistedSource (SetupConstants raw) digits tables scratch) ct.c0 ct.c1.level
        item.2))) = some out ∧
      (item.1 ≠ 0 → ∃ key, GetRotationKey (rot_keys ct.keyID) raw.N item.1 ct.slots = some key ∧
        Delivered digits tables ct key ext out) := by
    rintro ⟨index, i⟩ mem
    dsimp only
    by_cases proper : index = 0
    · rw [if_neg fun both => both.1 proper]
      exact ⟨_, rfl, fun other => absurd proper other⟩
    · obtain ⟨key, own⟩ := Option.isSome_iff_exists.mp
        (found index (List.fst_mem_of_mem_zipIdx mem) proper)
      have entry : (⟨i, key.1, key.2⟩ : Rotated) ∈ rotated := by
        apply (PartialLists.mem_mapM collected).mpr
        refine ⟨(index, i), List.mem_filter.mpr ⟨mem, decide_eq_true proper⟩, ?_⟩
        exact congrArg (Option.map _) own
      have place : indexes.getD i 0 = index := by
        rw [List.getD_eq_getElem?_getD, List.mem_zipIdx_iff_getElem?.mp mem, Option.getD_some]
      have made : Rotation digits tables ct key _ := hoisted_rotation generated narrow rotatable
        keysReduced ready allocated ext distinct stored entry (place.trans_ne proper)
      cases ext with
      | true =>
          rw [if_neg fun both => Bool.false_ne_true both.2.symm]
          exact ⟨_, rfl, fun _ => ⟨key, own, _, fun _ _ _ => 0, made, rfl⟩⟩
      | false =>
          obtain ⟨out, ran, -⟩ := made.modDown generated rotatable.c1.level (scratch.around.moddownAux i)
          rw [if_pos ⟨proper, rfl⟩]
          exact ⟨out, ran, fun _ => ⟨key, own, _, scratch.around.moddownAux i, made, ran⟩⟩
  obtain ⟨outs, ran, related⟩ := PartialLists.mapM_forall₂ visits
  refine ⟨outs, ?_, ?_⟩
  · simp only [collected, Option.bind_eq_bind, Option.bind_some]
    exact ran
  have byIndex : List.Forall₂ (fun index out => index ≠ 0 →
      ∃ key, GetRotationKey (rot_keys ct.keyID) raw.N index ct.slots = some key ∧
        Delivered digits tables ct key ext out) (indexes.zipIdx.map Prod.fst) outs :=
    List.forall₂_map_left_iff.mpr related
  rw [List.zipIdx_map_fst, indexes_def] at byIndex
  exact List.forall₂_map_left_iff.mp byIndex

omit generated narrow rotatable keysReduced in
/-- A missing key stops the hoisted rotations. -/
theorem rotate_hoisted_fails {scratch : Scratch} {results : Nat → Component → RNSPoly} (ext : Bool)
    {indexes_ : List Int} {index : Int} (mem : index ∈ indexes_)
    (proper : normalyzeIndex index ct.slots raw.N ≠ 0)
    (missing : keyOf rot_keys ct raw.N index = none) :
    ct.rotate_hoisted (SetupConstants raw) digits tables rot_keys scratch indexes_ results ext =
      none := by
  rw [DeviceCiphertext.rotate_hoisted]
  set indexes := indexes_.map fun i => normalyzeIndex i ct.slots (SetupConstants raw).N
  have listed : normalyzeIndex index ct.slots raw.N ∈ indexes.zipIdx.map Prod.fst := by
    rw [List.zipIdx_map_fst]
    exact List.mem_map_of_mem mem
  obtain ⟨item, inside, same⟩ := List.mem_map.mp listed
  have kept : item ∈ indexes.zipIdx.filter fun item => item.1 ≠ 0 := by
    apply List.mem_filter.mpr
    exact ⟨inside, decide_eq_true (same.trans_ne proper)⟩
  have stops : collectKey (SetupConstants raw) (rot_keys ct.keyID) ct.toSlottedCiphertext item =
      none := by
    rw [collectKey, same]
    exact Option.map_eq_none_iff.mpr missing
  simp only [PartialLists.mapM_eq_none kept stops, Option.bind_eq_bind, Option.bind_none]

theorem evalSingle_returns {scratch : Scratch} (ready : scratch.Ready raw ct.c1.level) {index : Int}
    (moddown : Bool) (proper : normalyzeIndex index ct.slots raw.N ≠ 0)
    (regular : ct.c1.modUp = false) {key : KeySwitchingKey × Nat}
    (found : keyOf rot_keys ct raw.N index = some key) :
    ∃ out, evalSingle (SetupConstants raw) digits tables rot_keys scratch ct index moddown =
        some out ∧ Delivered digits tables ct key (!moddown) out :=
  rotate_returns generated narrow rotatable keysReduced
    (copied_copy rotatable (copy_allocated rotatable ready 0)) ready moddown proper regular found

omit generated narrow keysReduced in
theorem evalSingle_fails {scratch : Scratch} (ready : scratch.Ready raw ct.c1.level) {index : Int}
    (moddown : Bool) (fails : normalyzeIndex index ct.slots raw.N = 0 ∨ ct.c1.modUp = true ∨
      keyOf rot_keys ct raw.N index = none) :
    evalSingle (SetupConstants raw) digits tables rot_keys scratch ct index moddown = none :=
  rotate_fails (copied_copy rotatable (copy_allocated rotatable ready 0)) scratch moddown fails

/-- A list of indices whose keys are found has one result for each index. -/
theorem evalVector_returns {scratch : Scratch} (ready : scratch.Ready raw ct.c1.level) (ext : Bool)
    {indices : List Int} (keys : ∀ index ∈ indices, normalyzeIndex index ct.slots raw.N ≠ 0 →
      (keyOf rot_keys ct raw.N index).isSome) :
    ∃ outs, evalVector (SetupConstants raw) digits tables rot_keys scratch ct indices ext =
        some outs ∧
      List.Forall₂ (fun index out => normalyzeIndex index ct.slots raw.N ≠ 0 →
        ∃ key, keyOf rot_keys ct raw.N index = some key ∧ Delivered digits tables ct key ext out)
        indices outs := by
  set results := indices.zipIdx.map fun item =>
    (item.1, ct.copy (SetupConstants raw) (scratch.auxilarPoly item.2)) with results_def
  set real := results.filter fun result => result.1 ≠ 0 with real_def
  have names : results.map Prod.fst = indices := by
    rw [results_def, List.map_map]
    exact List.zipIdx_map_fst 0 indices
  have copies : ∀ result ∈ real, ∀ component, (result.2.half component).specialLimbs = 0 ∨
      (result.2.half component).specialLimbs = raw.K := by
    intro result mem component
    obtain ⟨item, -, rfl⟩ := List.mem_map.mp (List.mem_filter.mp mem).1
    exact copy_allocated rotatable ready item.2 component
  have allocated : ∀ i component, (((real.map Prod.snd).getD i ct).half component).specialLimbs = 0 ∨
      (((real.map Prod.snd).getD i ct).half component).specialLimbs = raw.K := by
    intro i component
    by_cases inside : i < (real.map Prod.snd).length
    · rw [← @List.getElem_eq_getD _ _ i inside]
      obtain ⟨result, mem, same⟩ := List.mem_map.mp (List.getElem_mem inside)
      rw [← same]
      exact copies result mem component
    · rw [List.getD_eq_default _ _ (not_lt.mp inside)]
      cases component with
      | c0 => exact rotatable.c0.allocated
      | c1 => exact rotatable.c1.allocated
  have realKeys : ∀ index ∈ real.map Prod.fst, normalyzeIndex index ct.slots raw.N ≠ 0 →
      (keyOf rot_keys ct raw.N index).isSome := by
    intro index mem proper
    obtain ⟨result, kept, rfl⟩ := List.mem_map.mp mem
    have listed : result.1 ∈ indices := names ▸ List.mem_map_of_mem (List.mem_filter.mp kept).1
    exact keys result.1 listed proper
  obtain ⟨hoisted, ran, related⟩ := rotate_hoisted_returns generated narrow rotatable keysReduced
    ready allocated ext realKeys
  refine ⟨writeResults results hoisted, ?_, ?_⟩
  · rw [evalVector]
    simp only [← results_def, ← real_def]
    rw [show ct.rotate_hoisted (SetupConstants raw) digits tables rot_keys scratch
      (real.map Prod.fst) (fun i => ((real.map Prod.snd).getD i ct).half) ext = some hoisted from ran]
    rfl
  · rw [← names]
    apply writeResults_forall₂ related
    intro result _ zero proper
    rw [zero] at proper
    exact absurd ((normalyzeIndex_eq_zero rotatable.positive rotatable.divides 0).mpr (dvd_zero _))
      proper

omit generated narrow keysReduced in
/-- A missing key stops the rotations of a list. -/
theorem evalVector_fails (scratch : Scratch) (ext : Bool) {indices : List Int} {index : Int}
    (mem : index ∈ indices) (proper : normalyzeIndex index ct.slots raw.N ≠ 0)
    (missing : keyOf rot_keys ct raw.N index = none) :
    evalVector (SetupConstants raw) digits tables rot_keys scratch ct indices ext = none := by
  have nonzero : index ≠ 0 := by
    rintro rfl
    exact proper ((normalyzeIndex_eq_zero rotatable.positive rotatable.divides 0).mpr (dvd_zero _))
  have listed : index ∈ ((indices.zipIdx.map fun item =>
      (item.1, ct.copy (SetupConstants raw) (scratch.auxilarPoly item.2))).filter
        fun result => result.1 ≠ 0).map Prod.fst := by
    obtain ⟨place, inside⟩ := List.getElem?_of_mem mem
    have numbered : (index, place) ∈ indices.zipIdx := List.mem_zipIdx_iff_getElem?.mpr inside
    refine List.mem_map.mpr ⟨_, List.mem_filter.mpr ⟨List.mem_map_of_mem numbered, ?_⟩, rfl⟩
    exact decide_eq_true nonzero
  rw [evalVector]
  simp only [rotate_hoisted_fails ext listed proper missing, Option.bind_eq_bind, Option.bind_none]

end Single

end Fideslib.KeySwitch
