/-
This file proves that the calls on blocks of giant steps together write each output once.
-/

import Fideslib.LinearTransform.DotProductLaunch

namespace Fideslib.LinearTransform.Batch

variable {batch : Batch} {transforms : Nat}

/-- Both launches of a call read inside of its plaintexts. -/
def CallReadable (batch : Batch) : Prop :=
  ∀ special : Bool, (special → batch.ext) → ∀ position < batch.pt.length,
    ∀ limb < batch.limbCount special, ∀ idx < batch.covered,
      (batch.readWord special position limb idx).isSome

/-- The writes store the kernel's sums once at each coefficient that the launches cover. -/
structure Stores (batch : Batch) (transforms : Nat) (writes : List Write) : Prop where
  once : (writes.map Write.target).Nodup
  targets : ∀ (special : Bool) (position limb idx : Nat),
    (special, position, limb, idx) ∈ writes.map Write.target ↔ (special → batch.ext) ∧
      position < 2 * (transforms * batch.gStep) ∧ limb < batch.limbCount special ∧
        idx < batch.covered
  values : ∀ write ∈ writes, write.value =
    batch.dot write.special (write.position % 2) write.limb write.idx
      (write.position / 2 / batch.gStep) (write.position / 2 % batch.gStep) batch.bStep

def callWrites (batch : Batch) : List Write :=
  batch.launchWrites false ++ if batch.ext then batch.launchWrites true else []

theorem headStream_isSome {pt : List (Option PlaintextPart)} :
    (headStream pt).isSome ↔ ∃ part, pt[0]? = some (some part) := by
  unfold headStream
  cases first : pt[0]? with
  | none => simp
  | some head =>
      cases head with
      | none => simp
      | some part => simp

section

variable (sized : batch.Sized transforms) (single : batch.stride = 1)
include sized single

theorem callWrites_stores : batch.Stores transforms batch.callWrites where
  once := by
    have apart : ∀ target ∈ (batch.launchWrites false).map Write.target,
        target ∉ (batch.launchWrites true).map Write.target := by
      rintro ⟨special, position, limb, idx⟩ first second
      have one := ((mem_launch_targets sized single).mp first).1
      have two := ((mem_launch_targets sized single).mp second).1
      rw [one] at two
      cases two
    rw [callWrites, List.map_append]
    cases batch.ext with
    | false =>
        rw [if_neg Bool.false_ne_true, List.map_nil, List.append_nil]
        exact launch_targets_nodup sized single false
    | true =>
        rw [if_pos rfl]
        exact (launch_targets_nodup sized single false).append
          (launch_targets_nodup sized single true) fun target first second =>
            apart target first second
  targets := by
    intro special position limb idx
    rw [callWrites, List.map_append, List.mem_append, mem_launch_targets sized single]
    cases extended : batch.ext with
    | false =>
        rw [if_neg Bool.false_ne_true, List.map_nil]
        cases special <;> simp
    | true =>
        rw [if_pos rfl, mem_launch_targets sized single]
        cases special <;> simp
  values := by
    intro write member
    have value : ∀ special, write ∈ batch.launchWrites special → write.value =
        batch.dot write.special (write.position % 2) write.limb write.idx
          (write.position / 2 / batch.gStep) (write.position / 2 % batch.gStep) batch.bStep := by
      intro special inLaunch
      obtain ⟨same, value⟩ := launch_value inLaunch
      rw [same, value]
    rw [callWrites] at member
    rcases List.mem_append.mp member with first | second
    · exact value false first
    · cases extended : batch.ext with
      | false =>
          rw [extended, if_neg Bool.false_ne_true] at second
          cases second
      | true =>
          rw [extended, if_pos rfl] at second
          exact value true second

/-- A call returns exactly when it starts with a plaintext and reads inside of all of them. -/
theorem partitionCall_eq (head : ∃ part, batch.pt[0]? = some (some part))
    (readable : batch.CallReadable) (wide : batch.covered = batch.layout.N) :
    batch.partitionCall = some batch.callWrites := by
  obtain ⟨table, loaded, isTable⟩ := data_ptrs_isTable sized single
  obtain ⟨done, stream⟩ := Option.isSome_iff_exists.mp (headStream_isSome.mpr head)
  have launch : ∀ special : Bool, (special → batch.ext) →
      batch.dotProductLtBatchedPt2 table special = some (batch.launchWrites special) := by
    intro special allowed
    refine launch_eq sized single isTable allowed ?_
    intro position present limb inLimb idx inside
    exact readable special allowed position present limb inLimb idx (by rwa [wide])
  have regular := launch false (by simp)
  unfold partitionCall callWrites
  simp only [sized.limbs, if_true, loaded, stream, regular, Option.bind_eq_bind, Option.bind_some]
  cases extended : batch.ext with
  | false => rfl
  | true =>
      rw [if_pos rfl, launch true fun _ => extended]
      rfl

omit single in
theorem head_of_call {writes : List Write} (ran : batch.partitionCall = some writes) :
    ∃ part, batch.pt[0]? = some (some part) := by
  unfold partitionCall at ran
  rw [if_pos sized.limbs] at ran
  obtain ⟨table, -, afterTable⟩ := Option.bind_eq_some_iff.mp ran
  obtain ⟨done, stream, -⟩ := Option.bind_eq_some_iff.mp afterTable
  exact headStream_isSome.mp (by rw [stream]; rfl)

theorem readable_of_call {writes : List Write} (ran : batch.partitionCall = some writes) :
    batch.CallReadable := by
  intro special allowed position present limb inLimb idx inside
  by_contra missing
  rw [Option.not_isSome_iff_eq_none] at missing
  obtain ⟨table, loaded, isTable⟩ := data_ptrs_isTable sized single
  have stopped := launch_none sized single isTable allowed present inLimb inside missing
  unfold partitionCall at ran
  simp only [sized.limbs, if_true, loaded, Option.bind_eq_bind, Option.bind_some] at ran
  obtain ⟨done, -, afterStream⟩ := Option.bind_eq_some_iff.mp ran
  obtain ⟨regular, first, afterRegular⟩ := Option.bind_eq_some_iff.mp afterStream
  cases special with
  | false =>
      rw [stopped] at first
      cases first
  | true =>
      rw [if_pos (allowed rfl), stopped] at afterRegular
      cases afterRegular

end

/-- The last block may hold fewer than eight giant steps. -/
def width (batch : Batch) (g_in : Nat) : Nat := min 8 (batch.gStep - g_in)

theorem width_pos {g_in : Nat} (inside : g_in < batch.gStep) : 0 < batch.width g_in := by
  unfold width
  omega

theorem giant_lt {g_in k : Nat} (inBlock : k < batch.width g_in) : g_in + k < batch.gStep := by
  unfold width at inBlock
  omega

section

variable (sized : batch.Sized transforms) (single : batch.stride = 1)
include sized single

theorem blockOutputs_eq (g_in : Nat) :
    batch.blockOutputs g_in (batch.width g_in) = (List.range transforms).flatMap fun i =>
      (List.range (batch.width g_in)).flatMap fun k =>
        [2 * (i * batch.gStep + (g_in + k)), 2 * (i * batch.gStep + (g_in + k)) + 1] := by
  simp only [blockOutputs, num_LT_eq sized single, single, List.range_one, List.flatMap_cons,
    List.flatMap_nil, List.append_nil, mul_one, zero_mul, add_zero]

omit sized single in
theorem pairs_length (first : Nat → Nat) (count : Nat) :
    ((List.range count).flatMap fun k => [first k, first k + 1]).length = count * 2 := by
  have pair : ∀ k ∈ List.range count, [first k, first k + 1].length = 2 := fun k _ => rfl
  rw [PartialLists.length_flatMap_const pair, List.length_range]

theorem blockOutputs_length (g_in : Nat) :
    (batch.blockOutputs g_in (batch.width g_in)).length =
      2 * (transforms * 1 * batch.width g_in) := by
  have row := fun i (_ : i ∈ List.range transforms) => pairs_length
    (fun k => 2 * (i * batch.gStep + (g_in + k))) (batch.width g_in)
  rw [blockOutputs_eq sized single, PartialLists.length_flatMap_const row, List.length_range]
  ring

theorem blockOutputs_getElem {g_in i k c : Nat} (inRange : i < transforms)
    (inBlock : k < batch.width g_in) (half : c < 2) :
    (batch.blockOutputs g_in (batch.width g_in))[2 * (i * batch.width g_in + k) + c]? =
      some (2 * (i * batch.gStep + (g_in + k)) + c) := by
  have place : 2 * (i * batch.width g_in + k) + c =
      i * (batch.width g_in * 2) + (k * 2 + c) := by ring
  have row := fun i (_ : i < transforms) => pairs_length
    (fun k => 2 * (i * batch.gStep + (g_in + k))) (batch.width g_in)
  have pair : ∀ k < batch.width g_in, [2 * (i * batch.gStep + (g_in + k)),
      2 * (i * batch.gStep + (g_in + k)) + 1].length = 2 := fun k _ => rfl
  rw [blockOutputs_eq sized single, place,
    PartialLists.getElem?_flatMap_range row inRange (place_lt inBlock half),
    PartialLists.getElem?_flatMap_range pair inBlock half]
  interval_cases c <;> rfl

theorem mem_blockOutputs {g_in position : Nat}
    (member : position ∈ batch.blockOutputs g_in (batch.width g_in)) :
    position < batch.out.length := by
  rw [blockOutputs_eq sized single] at member
  simp only [List.mem_flatMap, List.mem_range, List.mem_cons, List.not_mem_nil, or_false] at member
  obtain ⟨i, inRange, k, inBlock, same⟩ := member
  have place := place_lt inRange (giant_lt inBlock)
  rw [out_length sized single]
  omega

theorem blockPlaintexts_eq (g_in : Nat) :
    batch.blockPlaintexts g_in (batch.width g_in) = (List.range transforms).flatMap fun i =>
      (List.range (batch.width g_in)).flatMap fun j => (List.range batch.bStep).map fun k =>
        i * batch.gStep * batch.bStep + (g_in + j) * batch.bStep + k := by
  rw [blockPlaintexts, num_LT_eq sized single]

omit sized single in
theorem rows_length (entry : Nat → Nat → Nat) (count width : Nat) :
    ((List.range count).flatMap fun j => (List.range width).map (entry j)).length =
      count * width := by
  rw [PartialLists.length_flatMap_const fun j _ => by rw [List.length_map, List.length_range],
    List.length_range]

theorem blockPlaintexts_length (g_in : Nat) :
    (batch.blockPlaintexts g_in (batch.width g_in)).length =
      transforms * batch.width g_in * batch.bStep := by
  rw [blockPlaintexts_eq sized single, PartialLists.length_flatMap_const fun i _ =>
    rows_length (fun j k => i * batch.gStep * batch.bStep + (g_in + j) * batch.bStep + k) _ _,
    List.length_range, mul_assoc]

theorem blockPlaintexts_getElem {g_in i j k : Nat} (inRange : i < transforms)
    (inBlock : j < batch.width g_in) (inBaby : k < batch.bStep) :
    (batch.blockPlaintexts g_in (batch.width g_in))[
        i * batch.bStep * batch.width g_in + j * batch.bStep + k]? =
      some (i * batch.bStep * batch.gStep + (g_in + j) * batch.bStep + k) := by
  have place : i * batch.bStep * batch.width g_in + j * batch.bStep + k =
      i * (batch.width g_in * batch.bStep) + (j * batch.bStep + k) := by ring
  have row := fun i (_ : i < transforms) => rows_length
    (fun j k => i * batch.gStep * batch.bStep + (g_in + j) * batch.bStep + k)
    (batch.width g_in) batch.bStep
  rw [blockPlaintexts_eq sized single, place,
    PartialLists.getElem?_flatMap_range row inRange (place_lt inBlock inBaby),
    PartialLists.getElem?_flatMap_range (fun j _ => by rw [List.length_map, List.length_range])
      inBlock inBaby, List.getElem?_map, List.getElem?_range inBaby, Option.map_some]
  congr 1
  ring

theorem mem_blockPlaintexts {g_in position : Nat}
    (member : position ∈ batch.blockPlaintexts g_in (batch.width g_in)) :
    position < batch.pt.length := by
  rw [blockPlaintexts_eq sized single] at member
  simp only [List.mem_flatMap, List.mem_map, List.mem_range] at member
  obtain ⟨i, inRange, j, inBlock, k, inBaby, rfl⟩ := member
  have place := place_lt (place_lt inRange (giant_lt inBlock)) inBaby
  have same : i * batch.gStep * batch.bStep + (g_in + j) * batch.bStep + k =
      (i * batch.gStep + (g_in + j)) * batch.bStep + k := by ring
  rw [sized.pt, same]
  exact place

end

/-- A block holds the outputs and the plaintexts of its giant steps, and all inputs. -/
structure IsBlock (batch : Batch) (g_in : Nat) (block : Batch) : Prop where
  ran : ∃ out pt,
    (batch.blockOutputs g_in (batch.width g_in)).mapM (fun position => batch.out[position]?) =
        some out ∧
      (batch.blockPlaintexts g_in (batch.width g_in)).mapM (fun position => batch.pt[position]?) =
        some pt ∧
      block = { batch with out, pt, gStep := batch.width g_in }

section

variable (sized : batch.Sized transforms) (single : batch.stride = 1)
include sized single

theorem exists_block (g_in : Nat) : ∃ block, batch.IsBlock g_in block := by
  obtain ⟨out, ranOut⟩ := @PartialLists.mapM_succeeds _ _ (fun position => batch.out[position]?)
    (batch.blockOutputs g_in (batch.width g_in)) (by
      intro position member
      rw [List.getElem?_eq_getElem (mem_blockOutputs sized single member)]
      rfl)
  obtain ⟨pt, ranPt⟩ := @PartialLists.mapM_succeeds _ _ (fun position => batch.pt[position]?)
    (batch.blockPlaintexts g_in (batch.width g_in)) (by
      intro position member
      rw [List.getElem?_eq_getElem (mem_blockPlaintexts sized single member)]
      rfl)
  exact ⟨_, ⟨out, pt, ranOut, ranPt, rfl⟩⟩

variable {g_in : Nat} {block : Batch} (isBlock : batch.IsBlock g_in block)
include isBlock

theorem block_sized (inside : g_in < batch.gStep) :
    block.Sized transforms ∧ block.stride = 1 := by
  obtain ⟨out, pt, ranOut, ranPt, rfl⟩ := isBlock.ran
  refine ⟨{ sized with
    gStep_pos := width_pos inside
    out := ?_
    pt := ?_
    limbs := ?_
    parts := ?_ }, single⟩
  · change out.length = 2 * (transforms * batch.stride * batch.width g_in)
    rw [PartialLists.mapM_length ranOut, blockOutputs_length sized single, single]
  · change pt.length = transforms * batch.width g_in * batch.bStep
    rw [PartialLists.mapM_length ranPt, blockPlaintexts_length sized single]
  · have all := sized.limbs
    simp only [checkLimbs, Bool.and_eq_true, List.all_eq_true] at all ⊢
    obtain ⟨⟨outs, inputs⟩, plains⟩ := all
    refine ⟨⟨?_, inputs⟩, ?_⟩
    · intro part member
      obtain ⟨position, -, found⟩ := (PartialLists.mem_mapM ranOut).mp member
      exact outs part (List.mem_of_getElem? found)
    · intro part member
      obtain ⟨position, -, found⟩ := (PartialLists.mem_mapM ranPt).mp member
      exact plains part (List.mem_of_getElem? found)
  · intro part member
    obtain ⟨position, -, found⟩ := (PartialLists.mem_mapM ranPt).mp member
    exact sized.parts part (List.mem_of_getElem? found)

/-- A giant step of a block finds the plaintexts of that giant step of the batch. -/
theorem block_pt {i j k : Nat} (inRange : i < transforms) (inBlock : j < batch.width g_in)
    (inBaby : k < batch.bStep) :
    block.pt[i * batch.bStep * batch.width g_in + j * batch.bStep + k]? =
      batch.pt[i * batch.bStep * batch.gStep + (g_in + j) * batch.bStep + k]? := by
  obtain ⟨out, pt, ranOut, ranPt, rfl⟩ := isBlock.ran
  rw [PartialLists.mapM_getElem? ranPt, blockPlaintexts_getElem sized single inRange inBlock inBaby]
  rfl

theorem block_dot (special : Bool) (c limb idx : Nat) {i j : Nat} (inRange : i < transforms)
    (inBlock : j < batch.width g_in) :
    block.dot special c limb idx i j block.bStep =
      batch.dot special c limb idx i (g_in + j) batch.bStep := by
  have plain := fun (k : Nat) (inBaby : k < batch.bStep) =>
    block_pt sized single isBlock inRange inBlock inBaby
  obtain ⟨out, pt, ranOut, ranPt, rfl⟩ := isBlock.ran
  unfold dot
  refine congrArg (· % batch.layout.modulus special limb) (Finset.sum_congr rfl fun k inBaby => ?_)
  have same := plain k (Finset.mem_range.mp inBaby)
  refine congrArg (batch.inputValue special (2 * (i * batch.bStep + k) + c) limb idx * ·) ?_
  simp only [wordValue, readWord, same]
  rfl

omit sized single in
theorem block_fields : block.layout = batch.layout ∧ block.ext = batch.ext ∧
    block.bStep = batch.bStep ∧ block.gStep = batch.width g_in := by
  obtain ⟨out, pt, -, -, rfl⟩ := isBlock.ran
  exact ⟨rfl, rfl, rfl, rfl⟩

theorem block_head (inside : g_in < batch.gStep) :
    block.pt[0]? = batch.pt[g_in * batch.bStep]? := by
  have first := block_pt sized single isBlock sized.transforms_pos (width_pos inside) sized.bStep_pos
  simpa only [zero_mul, zero_add, add_zero] using first

end

/-- The outputs of a block keep their place in the batch. -/
def relabel (batch : Batch) (g_in : Nat) (write : Write) : Write :=
  { write with
    position := (batch.blockOutputs g_in (batch.width g_in)).getD write.position 0 }

section

variable (sized : batch.Sized transforms) (single : batch.stride = 1)
include sized single

/-- A relabelled output belongs to the same transform and to a later giant step. -/
theorem relabel_place {g_in position : Nat}
    (inOut : position < 2 * (transforms * batch.width g_in)) :
    (batch.blockOutputs g_in (batch.width g_in)).getD position 0 =
      2 * (position / 2 / batch.width g_in * batch.gStep +
        (g_in + position / 2 % batch.width g_in)) + position % 2 := by
  have inPlaces : position / 2 < transforms * batch.width g_in := by omega
  obtain ⟨inRange, inBlock, whole⟩ := place_split inPlaces
  have found := blockOutputs_getElem sized single inRange inBlock (Nat.mod_lt position (by decide))
  have same : 2 * (position / 2 / batch.width g_in * batch.width g_in +
      position / 2 % batch.width g_in) + position % 2 = position := by
    rw [whole]
    omega
  rw [same] at found
  rw [List.getD_eq_getElem?_getD, found, Option.getD_some]

theorem relabel_decode {g_in position : Nat} (inOut : position < 2 * (transforms * batch.width g_in))
    {place : Nat}
    (here : (batch.blockOutputs g_in (batch.width g_in)).getD position 0 = place) :
    place < 2 * (transforms * batch.gStep) ∧ place % 2 = position % 2 ∧
      place / 2 / batch.gStep = position / 2 / batch.width g_in ∧
        place / 2 % batch.gStep = g_in + position / 2 % batch.width g_in := by
  rw [relabel_place sized single inOut] at here
  have inPlaces : position / 2 < transforms * batch.width g_in := by omega
  obtain ⟨inRange, inBlock, -⟩ := place_split inPlaces
  have inGiant := giant_lt inBlock
  have bound := place_lt inRange inGiant
  have halves : place / 2 = position / 2 / batch.width g_in * batch.gStep +
      (g_in + position / 2 % batch.width g_in) := by omega
  refine ⟨by omega, by omega, ?_, ?_⟩
  · rw [halves, place_div inGiant]
  · rw [halves, Nat.mul_add_mod_of_lt inGiant]

theorem blockCall_eq {g_in : Nat} {block : Batch} (isBlock : batch.IsBlock g_in block)
    (inside : g_in < batch.gStep) (first : ∃ part, batch.pt[0]? = some (some part))
    (head : ∃ part, batch.pt[g_in * batch.bStep]? = some (some part))
    (readable : block.CallReadable) (wide : batch.covered = batch.layout.N) :
    batch.blockCall g_in = some (block.callWrites.map (batch.relabel g_in)) := by
  obtain ⟨blockSized, blockSingle⟩ := block_sized sized single isBlock inside
  have blockHead := block_head sized single isBlock inside
  obtain ⟨sameLayout, -, -, -⟩ := block_fields isBlock
  have whole : block.covered = block.layout.N := by rw [covered, sameLayout]; exact wide
  rw [← blockHead] at head
  have ran := partitionCall_eq blockSized blockSingle head readable whole
  obtain ⟨done, stream⟩ := Option.isSome_iff_exists.mp (headStream_isSome.mpr first)
  obtain ⟨also, blockStream⟩ := Option.isSome_iff_exists.mp (headStream_isSome.mpr head)
  obtain ⟨out, pt, ranOut, ranPt, rfl⟩ := isBlock.ran
  change headStream pt = some also at blockStream
  unfold blockCall
  change ((batch.blockOutputs g_in (batch.width g_in)).mapM fun position => batch.out[position]?) >>=
    _ = _
  rw [ranOut, Option.bind_eq_bind, Option.bind_some]
  change ((batch.blockPlaintexts g_in (batch.width g_in)).mapM fun position => batch.pt[position]?) >>=
    _ = _
  rw [ranPt, Option.bind_eq_bind, Option.bind_some, blockStream, Option.bind_eq_bind,
    Option.bind_some, stream, Option.bind_eq_bind, Option.bind_some]
  change ((partitionCall { batch with out, pt, gStep := batch.width g_in }) >>= _) = _
  rw [ran]
  rfl

/-- A block that returns starts with plaintexts and reads inside of all of them. -/
theorem of_blockCall {g_in : Nat} {block : Batch} (isBlock : batch.IsBlock g_in block)
    (inside : g_in < batch.gStep) {writes : List Write} (ran : batch.blockCall g_in = some writes) :
    (∃ part, batch.pt[g_in * batch.bStep]? = some (some part)) ∧ block.CallReadable := by
  obtain ⟨blockSized, blockSingle⟩ := block_sized sized single isBlock inside
  have blockHead := block_head sized single isBlock inside
  obtain ⟨out, pt, ranOut, ranPt, rfl⟩ := isBlock.ran
  unfold blockCall at ran
  change (((batch.blockOutputs g_in (batch.width g_in)).mapM fun position => batch.out[position]?) >>=
    _) = _ at ran
  rw [ranOut, Option.bind_eq_bind, Option.bind_some] at ran
  change (((batch.blockPlaintexts g_in (batch.width g_in)).mapM fun position =>
    batch.pt[position]?) >>= _) = _ at ran
  rw [ranPt, Option.bind_eq_bind, Option.bind_some] at ran
  obtain ⟨also, -, afterHead⟩ := Option.bind_eq_some_iff.mp ran
  obtain ⟨done, -, afterFirst⟩ := Option.bind_eq_some_iff.mp afterHead
  obtain ⟨blockWrites, called, -⟩ := Option.bind_eq_some_iff.mp afterFirst
  change partitionCall { batch with out, pt, gStep := batch.width g_in } = some blockWrites at called
  rw [← blockHead]
  exact ⟨head_of_call blockSized called, readable_of_call blockSized blockSingle called⟩

end

end Fideslib.LinearTransform.Batch
