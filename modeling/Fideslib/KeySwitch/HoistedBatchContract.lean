/-
This file proves that the batched hoisted rotations give the results of the single ones.
-/

import Fideslib.KeySwitch.HoistedContract
import Fideslib.KeySwitch.ModUpContract

namespace Fideslib.KeySwitch

open Constants (SetupConstants)

/-- The launch of a batch has all its blocks, and these have all their threads. -/
structure BatchSurroundings.Complete (raw : RawParams) (level stride : Nat)
    (around : BatchSurroundings) : Prop where
  block : ∀ row column, (column, row) ∈ around.blocks ↔
    column < raw.N / shrinkBlock stride 64 ∧ row < raw.K + (level + 1)
  thread : ∀ blockIdx ∈ around.blocks, ∀ thread : BlockThread, thread ∈ around.threads blockIdx ↔
    thread.x < shrinkBlock stride 64 ∧ thread.y < 2 ∧ thread.z < stride

/-- The words of the ciphertexts of a batch and of its keys are reduced. -/
structure BatchReady {raw : RawParams} (digits : Digits raw) (level stride n : Nat)
    (c0_modup : Bool) (input : Nat → BatchInput) (keys : Nat → Option KeySwitchingKey) : Prop where
  source : ∀ z, z < stride → digits.Reduced level (input z).source
  c0 : ∀ z, z < stride → (input z).c0.Canonical raw
  low : ∀ z, z < stride → level ≤ (input z).c0.level
  modUp : ∀ z, z < stride → (input z).c0.modUp = c0_modup
  keys : ∀ j, j < n → ∀ ksk, keys j = some ksk →
    ∀ component, digits.Reduced level (ksk.half component)

section Batches

variable {raw : RawParams} (generated : raw.Generated) (narrow : raw.logN ≤ 30)
  {digits : Digits raw} {level stride n : Nat} (bound : level < raw.L) {c0_modup : Bool}
  {input : Nat → BatchInput} {keys : Nat → Option KeySwitchingKey}
  (ready : BatchReady digits level stride n c0_modup input keys) {around : BatchSurroundings}

section Arguments

variable {indexes : Nat → Nat}

include ready

/-- The tables of the host lead to the operands of the batch. -/
theorem batchArguments_describes :
    (batchArguments digits (SetupConstants raw) around stride n level raw.K input keys indexes
      c0_modup).Describes digits level input keys where
  count := rfl
  rows := rfl
  chain _ := rfl
  extension := by
    intro z ciphertext i inside
    exact digitPointers_read around.staleDigits ciphertext inside
  regular _ := rfl
  special _ := rfl
  modUp := ready.modUp
  digit := by
    intro j rotation y half i inside
    exact (batchPointers_read around.stale rotation half).1 i inside
  limb := by
    intro j rotation y half
    exact (batchPointers_read around.stale rotation half).2

omit ready in
include generated in
/-- The blocks of a batch tile the rows of the ring. -/
theorem batchArguments_covered (complete : around.Complete raw level stride) :
    Batch.Covered raw level (batchArguments digits (SetupConstants raw) around stride n level raw.K
      input keys indexes c0_modup) around.blocks around.threads where
  divides := by
    obtain ⟨k, power, short⟩ := shrinkBlock_dvd stride 64 ⟨6, rfl⟩
    change shrinkBlock stride 64 ∣ 2 ^ raw.logN
    rw [power] at short ⊢
    have ring := generated.ring
    have small : k ≤ 6 := (Nat.pow_le_pow_iff_right (by decide)).mp (short.trans_eq rfl)
    exact Nat.pow_dvd_pow 2 (by omega)
  block := complete.block
  thread := complete.thread

end Arguments

variable (complete : around.Complete raw level stride) {results : Nat → Component → RNSPoly}
  (allocated : (results 0 .c0).specialLimbs = raw.K)

include generated narrow bound ready complete allocated

/-- Each result of a batch holds the moved sums of its ciphertext and its rotation. -/
theorem fusedHoistedRotateBatch_word {indexes : Nat → Nat} {z j : Nat} (ciphertext : z < stride)
    (rotation : j < n) {inverse : Nat} (undoes : Undoes raw (indexes j) inverse)
    (component : Component) {id slot : Nat} (live : raw.Live level id) (inside : slot < raw.N) :
    (fusedHoistedRotateBatch digits (SetupConstants raw) around stride n level input keys indexes
        c0_modup results (z * n + j) component).word raw id slot =
      ((input z).residue digits level (keys j) component id
        (Batch.origin raw (fun _ => inverse) (keys j) j slot)).val := by
  choose other undo using exists_undoes raw
  have undone : ∀ i, i < n → automorph_index_precomp (indexes i) raw.N % 2 = 1 ∧
      (if i = j then inverse else other (indexes i)) % 2 = 1 ∧
      automorph_index_precomp (indexes i) raw.N * (if i = j then inverse else other (indexes i)) %
        2 ^ (raw.logN + 1) = 1 := by
    intro i _
    by_cases same : i = j
    · rw [if_pos same, same]
      exact ⟨automorph_index_odd _ _, undoes⟩
    · rw [if_neg same]
      exact ⟨automorph_index_odd _ _, undo _⟩
  have described : (batchArguments digits (SetupConstants raw) around stride n level raw.K input keys
      indexes c0_modup).Describes digits level input keys := batchArguments_describes ready
  have launched := Batch.batch_launch generated narrow bound described
    (fun z inside => ⟨ready.source z inside, ready.c0 z inside, ready.low z inside⟩) ready.keys undone
    (batchArguments_covered generated complete) around.uninitialised (store results) ciphertext
    rotation component live inside
  have own : Batch.origin raw (fun i => if i = j then inverse else other (indexes i)) (keys j) j slot =
      Batch.origin raw (fun _ => inverse) (keys j) j slot := by
    cases keys j with
    | none => rfl
    | some ksk => rw [Batch.origin, Batch.origin, if_pos rfl]
  rw [own] at launched
  rw [fusedHoistedRotateBatch, allocated]
  have word := load_word raw (results (z * n + j) component) (Scatter.launch (fun blockIdx =>
    (batchArguments digits (SetupConstants raw) around stride n level raw.K input keys indexes
      c0_modup).hoistedRotateDotKSKBatched___ digits (SetupConstants raw) blockIdx
      (around.threads blockIdx) (around.uninitialised blockIdx)) around.blocks (store results))
    component (z * n + j) id slot
  exact word.trans launched

/-- A rotation of a batch has the words of the three steps, and one without a key those of its
ciphertext in the extended basis. -/
theorem fusedHoistedRotateBatch_agrees {indexes : Nat → Nat} {z j : Nat} (ciphertext : z < stride)
    (rotation : j < n) :
    (∀ ksk, keys j = some ksk → ∀ (other : Surroundings) (i : Nat)
        (result : Component → RNSPoly), other.Complete raw level →
        (∀ component, (result component).level = level) → (result .c0).specialLimbs = raw.K →
        ∃ unfused, rotateUnfused digits (SetupConstants raw) other true i (input z).c0
            (input z).source ksk (indexes j) result = some unfused ∧
          SameWords raw level (fusedHoistedRotateBatch digits (SetupConstants raw) around stride n
            level input keys indexes c0_modup results (z * n + j)) unfused) ∧
      (keys j = none → ∀ component id slot, raw.Live level id → slot < raw.N →
        (fusedHoistedRotateBatch digits (SetupConstants raw) around stride n level input keys indexes
            c0_modup results (z * n + j) component).word raw id slot =
          ((input z).identityResidue raw component id slot).val) := by
  obtain ⟨inverse, undoes⟩ := exists_undoes raw (indexes j)
  have word := fun component {id slot : Nat} (live : raw.Live level id) (inside : slot < raw.N) =>
    fusedHoistedRotateBatch_word generated narrow bound ready complete allocated ciphertext rotation
      undoes component live inside
  constructor
  · intro ksk key other i result otherComplete levels special
    obtain ⟨unfused, ran, words⟩ := rotateUnfused_word generated bound narrow
      (ready.source z ciphertext) (ready.keys j rotation ksk key) (ready.c0 z ciphertext)
      (ready.low z ciphertext) other i levels special (otherComplete.dot i)
      (fun component id live => otherComplete.move i component id live) undoes
    refine ⟨unfused, ran, ?_⟩
    intro component id slot live inside
    have positive : NeZero (raw.prime id) := ⟨(generated.modulus (live.inside bound)).pos.ne'⟩
    rw [word component live inside, (words component id slot live inside).2, key]
    exact ⟨rfl, ZMod.val_lt _⟩
  · intro key component id slot live inside
    rw [word component live inside, key]
    rfl

end Batches

/-- In the extended basis the fused and the batched rotations have the words of the three steps. -/
theorem hoistedRotations_agree {raw : RawParams} (generated : raw.Generated)
    (narrow : raw.logN ≤ 30) (digits : Digits raw) :
    (∀ (self : SlottedCiphertext) (digitLimbs : Nat → Nat → Limb), self.Hoistable digits digitLimbs →
      ∀ rot_keys : Nat → Option KeySwitchingKey, (∀ r ksk, rot_keys r = some ksk →
        ∀ component, digits.Reduced self.c1.level (ksk.half component)) →
      ∀ results : Nat → Component → RNSPoly, (∀ i component,
        (results i component).specialLimbs = 0 ∨ (results i component).specialLimbs = raw.K) →
      ∀ around other : Surroundings, around.Complete raw self.c1.level →
        other.Complete raw self.c1.level → ∀ indexes_ : List Int,
        Option.Rel (List.Forall₂ (SameWords raw self.c1.level))
          (rotate_hoisted digits (SetupConstants raw) around rot_keys true true self digitLimbs
            indexes_ results)
          (rotate_hoisted digits (SetupConstants raw) other rot_keys true false self digitLimbs
            indexes_ results)) ∧
    ∀ (level stride n : Nat) (c0_modup : Bool) (input : Nat → BatchInput)
        (keys : Nat → Option KeySwitchingKey), level < raw.L →
      BatchReady digits level stride n c0_modup input keys →
      ∀ around : BatchSurroundings, around.Complete raw level stride →
      ∀ results : Nat → Component → RNSPoly, (results 0 .c0).specialLimbs = raw.K →
      ∀ (indexes : Nat → Nat) (z j : Nat), z < stride → j < n →
        (∀ ksk, keys j = some ksk → ∀ (other : Surroundings) (i : Nat)
          (result : Component → RNSPoly), other.Complete raw level →
          (∀ component, (result component).level = level) → (result .c0).specialLimbs = raw.K →
          ∃ unfused, rotateUnfused digits (SetupConstants raw) other true i (input z).c0
              (input z).source ksk (indexes j) result = some unfused ∧
            SameWords raw level (fusedHoistedRotateBatch digits (SetupConstants raw) around stride n
              level input keys indexes c0_modup results (z * n + j)) unfused) ∧
        (keys j = none → ∀ component id slot, raw.Live level id → slot < raw.N →
          (fusedHoistedRotateBatch digits (SetupConstants raw) around stride n level input keys
              indexes c0_modup results (z * n + j) component).word raw id slot =
            ((input z).identityResidue raw component id slot).val) := by
  constructor
  · intro self digitLimbs hoistable rot_keys keysReduced results allocated around other complete
      otherComplete indexes_
    exact rotate_hoisted_fused generated narrow hoistable keysReduced allocated complete otherComplete
      indexes_
  · intro level stride n c0_modup input keys bound ready around complete results allocated indexes z j
      ciphertext rotation
    exact fusedHoistedRotateBatch_agrees generated narrow bound ready complete allocated ciphertext
      rotation

/-- A launch may visit its rows one after the other. -/
def rowsOf (rows columns : Nat) : List (Nat × Nat) :=
  (List.range rows).flatMap fun row => (List.range columns).map fun column => (row, column)

theorem rowsOf_covers (rows columns : Nat) : Covers (rowsOf rows columns) rows columns := by
  intro row column
  simp [rowsOf]

/-- All words of this polynomial are one. -/
def flatPoly : RNSPoly where
  level := 0
  limb := fun _ _ => 1
  special := fun _ _ => 1
  specialLimbs := 1
  modUp := false

theorem flatPoly_canonical : flatPoly.Canonical smallParams where
  level := Nat.zero_lt_succ 1
  limb := by
    intro j inside i _
    change j ≤ 0 at inside
    interval_cases j
    exact one_lt_two.trans (by decide)
  special := by
    intro extended
    exact absurd extended Bool.false_ne_true
  allocated := Or.inr rfl

def flatDigits : DigitPoly where
  limb := fun _ _ => 1
  DIGITlimb := fun _ _ _ => 1

theorem flatDigits_reduced : smallDigits.Reduced 0 flatDigits := by
  intro i _ id live idx _
  have word : smallDigits.operand flatDigits i id idx = 1 := by
    rw [Digits.operand]
    split_ifs <;> rfl
  rw [word]
  exact (smallParams_generated.modulus (live.inside (Nat.zero_lt_succ 1))).large

def flatKey : KeySwitchingKey where
  a := flatDigits
  b := flatDigits

theorem flatKey_reduced (component : Component) :
    smallDigits.Reduced 0 (flatKey.half component) := by
  cases component with
  | c0 => exact flatDigits_reduced
  | c1 => exact flatDigits_reduced

def flatSurroundings : Surroundings where
  fused := rowsOf 2 128
  dot := fun _ => rowsOf 2 128
  move := fun _ _ _ => List.range 128
  stale := fun _ _ _ => 0
  aux := fun _ _ _ _ => 0
  specialAux := fun _ _ _ _ => 0
  moddownAux := fun _ _ _ _ => 0
  aux2 := flatPoly

theorem flatSurroundings_complete : flatSurroundings.Complete smallParams 0 where
  fused := rowsOf_covers 2 128
  dot := fun _ => rowsOf_covers 2 128
  move := by
    intro i component id _ j
    exact List.mem_range

def flatBatch : BatchSurroundings where
  blocks := (rowsOf 2 2).map Prod.swap
  threads := fun _ => (List.range 64).flatMap fun x => (List.range 2).map fun y => ⟨x, y, 0⟩
  uninitialised := fun _ _ => 0
  stale := fun _ => none
  staleDigits := fun _ _ _ => 0
  null := fun _ _ => 0

theorem flatBatch_complete : flatBatch.Complete smallParams 0 1 where
  block := by
    intro row column
    have width : shrinkBlock 1 64 = 64 := by simp [shrinkBlock]
    have swapped : (column, row) ∈ (rowsOf 2 2).map Prod.swap ↔ (row, column) ∈ rowsOf 2 2 := by
      simp
    rw [width]
    change (column, row) ∈ (rowsOf 2 2).map Prod.swap ↔ column < 2 ∧ row < 2
    rw [swapped, rowsOf_covers, And.comm]
  thread := by
    intro blockIdx _ thread
    have width : shrinkBlock 1 64 = 64 := by simp [shrinkBlock]
    obtain ⟨x, y, z⟩ := thread
    rw [width, flatBatch]
    simp
    omega

/-- A trivial and a proper rotation of a small ciphertext, alone and in a batch of one. -/
theorem hoistedRotations_agree_small :
    Option.Rel (List.Forall₂ (SameWords smallParams 0))
      (rotate_hoisted smallDigits (SetupConstants smallParams) flatSurroundings
        (fun _ => some flatKey) true true ⟨flatPoly, flatPoly, 64⟩ (fun _ _ _ => 1) [0, 1]
        fun _ _ => flatPoly)
      (rotate_hoisted smallDigits (SetupConstants smallParams) flatSurroundings
        (fun _ => some flatKey) true false ⟨flatPoly, flatPoly, 64⟩ (fun _ _ _ => 1) [0, 1]
        fun _ _ => flatPoly) ∧
    (∃ unfused, rotateUnfused smallDigits (SetupConstants smallParams) flatSurroundings true 0
        flatPoly flatDigits flatKey 1 (fun _ => flatPoly) = some unfused ∧
      SameWords smallParams 0 (fusedHoistedRotateBatch smallDigits (SetupConstants smallParams)
        flatBatch 1 1 0 (fun _ => ⟨flatPoly, flatDigits⟩) (fun _ => some flatKey) (fun _ => 1) false
        (fun _ _ => flatPoly) 0) unfused) := by
  obtain ⟨single, batch⟩ :=
    hoistedRotations_agree smallParams_generated (show smallParams.logN ≤ 30 by decide) smallDigits
  have hoistable : (⟨flatPoly, flatPoly, 64⟩ : SlottedCiphertext).Hoistable smallDigits
      fun _ _ _ => 1 :=
    { c0 := flatPoly_canonical
      c1 := flatPoly_canonical
      level := rfl
      reduced := flatDigits_reduced
      positive := by decide
      divides := by decide }
  have ready : BatchReady smallDigits 0 1 1 false (fun _ => ⟨flatPoly, flatDigits⟩)
      fun _ => some flatKey :=
    { source := fun _ _ => flatDigits_reduced
      c0 := fun _ _ => flatPoly_canonical
      low := fun _ _ => le_rfl
      modUp := fun _ _ => rfl
      keys := by
        intro j _ ksk same
        rw [← Option.some.inj same]
        exact flatKey_reduced }
  constructor
  · apply single _ _ hoistable _ _ _ _ _ _ flatSurroundings_complete flatSurroundings_complete
    · intro r ksk same
      rw [← Option.some.inj same]
      exact flatKey_reduced
    · intro i component
      exact Or.inr rfl
  · exact (batch 0 1 1 false _ _ (Nat.zero_lt_succ 1) ready flatBatch flatBatch_complete
      (fun _ _ => flatPoly) rfl (fun _ => 1) 0 0 Nat.one_pos Nat.one_pos).1 flatKey rfl
      flatSurroundings 0 (fun _ => flatPoly) flatSurroundings_complete (fun _ => rfl) rfl

end Fideslib.KeySwitch
