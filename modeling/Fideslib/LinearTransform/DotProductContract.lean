/-
This file decides when a batch computes the products of its transforms.
-/

import Fideslib.LinearTransform.DotProductCall

namespace Fideslib.LinearTransform.Batch

variable {batch : Batch} {transforms : Nat}

/-- A plaintext with few slots repeats each word over a run of coefficients. -/
def plaintextValue (batch : Batch) (special : Bool) (position limb idx : Nat) : Nat :=
  match batch.pt[position]?.join with
  | some part => (words part special limb).getD (idx / (batch.layout.N / (2 * part.slots))) 0
  | none => 0

/-- This is the product of one transform for one ciphertext and one giant step. -/
def product (batch : Batch) (special : Bool) (c limb idx i j k : Nat) : Nat :=
  (∑ b ∈ Finset.range batch.bStep,
    batch.inputValue special (2 * (i * batch.stride * batch.bStep + j * batch.bStep + b) + c) limb
        idx *
      batch.plaintextValue special (i * batch.gStep * batch.bStep + k * batch.bStep + b) limb idx) %
    batch.layout.modulus special limb

/-- The writes store each product once and nothing else. -/
structure Computes (batch : Batch) (transforms : Nat) (writes : List Write) : Prop where
  once : (writes.map Write.target).Nodup
  targets : ∀ (special : Bool) (position limb idx : Nat),
    (special, position, limb, idx) ∈ writes.map Write.target ↔ (special → batch.ext) ∧
      position < batch.out.length ∧ limb < batch.limbCount special ∧ idx < batch.layout.N
  values : ∀ write ∈ writes, ∀ i < transforms, ∀ j < batch.stride, ∀ k < batch.gStep, ∀ c < 2,
    write.position = 2 * (i * batch.stride * batch.gStep + j * batch.gStep + k) + c →
      write.value = batch.product write.special c write.limb write.idx i j k

/-- The call computes the products of all ciphertexts with its plaintexts. -/
def Meets (batch : Batch) (transforms : Nat) : Prop :=
  ∀ input, Sized { batch with input } transforms →
    ∃ writes, LTdotProductPtBatch { batch with input } = some writes ∧
      Computes { batch with input } transforms writes

/-- The slot count of the call finds the words that the slot count of each plaintext finds. -/
def OwnWords (batch : Batch) : Prop :=
  ∀ part, some part ∈ batch.pt → ∀ special : Bool, (special → batch.ext) →
    ∀ limb < batch.limbCount special, ∀ idx < batch.layout.N,
      ∃ word, (words part special limb)[idx / (batch.layout.N / (2 * batch.slots))]? = some word ∧
        word ≡ (words part special limb).getD (idx / (batch.layout.N / (2 * part.slots))) 0
          [MOD batch.layout.modulus special limb]

/-- This is the condition under which a batch computes its products. -/
structure Faithful (batch : Batch) : Prop where
  stride : batch.stride = 1
  wide : 64 ∣ batch.layout.N
  heads : ∀ g < batch.gStep, 8 ∣ g → ∃ part, batch.pt[g * batch.bStep]? = some (some part)
  words : batch.OwnWords

theorem covered_eq (wide : 64 ∣ batch.layout.N) : batch.covered = batch.layout.N :=
  Nat.div_mul_cancel wide

/-- The shift divides by the length of a run. -/
theorem shift_eq (sized : batch.Sized transforms) (wide : 64 ∣ batch.layout.N) (idx : Nat) :
    idx >>> batch.logstride = idx / (batch.layout.N / (2 * batch.slots)) := by
  obtain ⟨slots, divides⟩ := sized.slots
  have whole : 4 * 16 * (batch.layout.N / 64) = batch.layout.N := Nat.mul_div_cancel' wide
  have factor : batch.layout.N / (2 * batch.slots) ∣ 2 ^ batch.layout.logN := Nat.div_dvd_of_dvd divides
  obtain ⟨exponent, -, power⟩ := (Nat.dvd_prime_pow Nat.prime_two).mp factor
  have lowest : ffs (2 ^ exponent) = exponent + 1 := by
    rw [ffs, if_neg (by positivity), padicValNat.prime_pow]
  rw [logstride, whole, power, lowest, Nat.add_sub_cancel, Nat.shiftRight_eq_div_pow]

theorem readWord_of_part {position : Nat} {part : PlaintextPart}
    (found : batch.pt[position]? = some (some part)) (special : Bool) (limb idx : Nat) :
    batch.readWord special position limb idx =
      (words part special limb)[idx >>> batch.logstride]? := by
  rw [readWord, found]
  rfl

theorem plaintextValue_of_part {position : Nat} {part : PlaintextPart}
    (found : batch.pt[position]? = some (some part)) (special : Bool) (limb idx : Nat) :
    batch.plaintextValue special position limb idx =
      (words part special limb).getD (idx / (batch.layout.N / (2 * part.slots))) 0 := by
  rw [plaintextValue, found]
  rfl

section

variable (sized : batch.Sized transforms) (wide : 64 ∣ batch.layout.N) (own : batch.OwnWords)
include sized wide own

theorem readable_of_ownWords : batch.CallReadable := by
  intro special allowed position present limb inLimb idx inside
  rw [covered_eq wide] at inside
  cases found : batch.pt[position]?.join with
  | none =>
      rw [readWord, found]
      rfl
  | some part =>
      have here := Option.join_eq_some_iff.mp found
      obtain ⟨word, stored, -⟩ := own part (List.mem_of_getElem? here) special allowed limb inLimb
        idx inside
      rw [readWord_of_part here, shift_eq sized wide, stored]
      rfl

/-- The kernel multiplies by the value of the plaintext. -/
theorem wordValue_modEq {special : Bool} (allowed : special → batch.ext) (position : Nat) {limb idx : Nat}
    (inLimb : limb < batch.limbCount special) (inside : idx < batch.layout.N) :
    batch.wordValue special position limb idx ≡ batch.plaintextValue special position limb idx
      [MOD batch.layout.modulus special limb] := by
  cases found : batch.pt[position]?.join with
  | none =>
      rw [wordValue, readWord, plaintextValue, found]
      rfl
  | some part =>
      have here := Option.join_eq_some_iff.mp found
      obtain ⟨word, stored, same⟩ := own part (List.mem_of_getElem? here) special allowed limb
        inLimb idx inside
      rw [wordValue, readWord_of_part here, shift_eq sized wide, stored, Option.getD_some,
        plaintextValue_of_part here]
      exact same

theorem dot_eq_product (single : batch.stride = 1) {special : Bool} (allowed : special → batch.ext)
    {limb idx : Nat} (inLimb : limb < batch.limbCount special) (inside : idx < batch.layout.N)
    (c i k : Nat) :
    batch.dot special c limb idx i k batch.bStep = batch.product special c limb idx i 0 k := by
  unfold dot product
  rw [← ZMod.natCast_eq_natCast_iff']
  push_cast
  refine Finset.sum_congr rfl fun b _ => ?_
  have place : i * batch.bStep * batch.gStep + k * batch.bStep + b =
      i * batch.gStep * batch.bStep + k * batch.bStep + b := by ring
  have same := (ZMod.natCast_eq_natCast_iff _ _ _).mpr (wordValue_modEq sized wide own allowed
    (i * batch.gStep * batch.bStep + k * batch.bStep + b) inLimb inside)
  rw [place, same, single, mul_one, zero_mul, add_zero]

end

/-- Where the condition holds, every input has its products. -/
theorem meets_of_faithful (faithful : batch.Faithful) : batch.Meets transforms := by
  intro input inputSized
  have own : OwnWords { batch with input } := faithful.words
  have wide : covered { batch with input } = batch.layout.N := covered_eq faithful.wide
  have returns : Returns { batch with input } :=
    ⟨faithful.heads, readable_of_ownWords inputSized faithful.wide own⟩
  obtain ⟨writes, ran, stores⟩ := stores_of_returns inputSized faithful.stride returns wide
  have outs := out_length inputSized faithful.stride
  have targets : ∀ (special : Bool) (position limb idx : Nat),
      (special, position, limb, idx) ∈ writes.map Write.target ↔ (special → batch.ext) ∧
        position < batch.out.length ∧ limb < batch.limbCount special ∧ idx < batch.layout.N := by
    intro special position limb idx
    rw [stores.targets, wide, ← outs]
    rfl
  refine ⟨writes, ran, stores.once, targets, ?_⟩
  intro write member i inRange j inStride k inGiant c half position
  have target := (targets write.special write.position write.limb write.idx).mp
    (List.mem_map_of_mem member)
  have first : j = 0 := by
    have single : batch.stride = 1 := faithful.stride
    change j < batch.stride at inStride
    omega
  subst first
  change write.position = 2 * (i * batch.stride * batch.gStep + 0 * batch.gStep + k) + c at position
  change k < batch.gStep at inGiant
  rw [faithful.stride, mul_one, zero_mul, add_zero] at position
  have halves : write.position / 2 = i * batch.gStep + k := by omega
  have parity : write.position % 2 = c := by omega
  have value := stores.values write member
  rw [halves, parity] at value
  change write.value = dot { batch with input } write.special c write.limb write.idx
    ((i * batch.gStep + k) / batch.gStep) ((i * batch.gStep + k) % batch.gStep) batch.bStep at value
  rw [place_div inGiant, Nat.mul_add_mod_of_lt inGiant] at value
  rw [value]
  exact dot_eq_product inputSized faithful.wide own faithful.stride target.1 target.2.2.1
    target.2.2.2 c i k

/-- One polynomial of these ciphertexts holds ones and the others hold zeros. -/
def unitInput (batch : Batch) (position : Nat) : List CiphertextPart :=
  (List.range batch.input.length).map fun place =>
    { limbs := batch.layout.limbsize
      limb := fun _ _ => if place = position then 1 else 0
      SPECIALlimb := fun _ _ => if place = position then 1 else 0 }

theorem unitInput_sized (sized : batch.Sized transforms) (position : Nat) :
    Sized { batch with input := batch.unitInput position } transforms := by
  refine { sized with
    input := ?_
    limbs := ?_ }
  · rw [unitInput, List.length_map, List.length_range]
    exact sized.input
  · have all := sized.limbs
    simp only [checkLimbs, Bool.and_eq_true] at all ⊢
    refine ⟨⟨all.1.1, ?_⟩, all.2⟩
    simp [unitInput]

theorem unitInput_value (batch : Batch) (position : Nat) (special : Bool) {place : Nat}
    (inside : place < batch.input.length) (limb idx : Nat) :
    inputValue { batch with input := batch.unitInput position } special place limb idx =
      if place = position then 1 else 0 := by
  have found : (batch.unitInput position)[place]? =
      some { limbs := batch.layout.limbsize
             limb := fun _ _ => if place = position then 1 else 0
             SPECIALlimb := fun _ _ => if place = position then 1 else 0 } := by
    rw [unitInput, List.getElem?_map, List.getElem?_range inside]
    rfl
  simp only [inputValue, found]
  cases special <;> rfl

/-- The input that holds ones in one place reads one word out of the sum. -/
theorem unitInput_sum (sized : batch.Sized transforms) (single : batch.stride = 1) (special : Bool)
    {i b : Nat} (inRange : i < transforms) (inBaby : b < batch.bStep) (limb idx : Nat)
    (value : Nat → Nat) :
    ∑ b' ∈ Finset.range batch.bStep,
      inputValue { batch with input := batch.unitInput (2 * (i * batch.bStep + b)) } special
        (2 * (i * batch.bStep + b') + 0) limb idx * value b' = value b := by
  have length := input_length sized single
  rw [Finset.sum_eq_single b]
  · have place := place_lt inRange inBaby
    rw [unitInput_value _ _ _ (by omega), if_pos (by omega), one_mul]
  · intro other member apart
    have place := place_lt inRange (Finset.mem_range.mp member)
    rw [unitInput_value _ _ _ (by omega), if_neg (by omega), zero_mul]
  · intro outside
    exact absurd (Finset.mem_range.mpr inBaby) outside

theorem single_of_meets (sized : batch.Sized transforms) (meets : batch.Meets transforms) :
    batch.stride = 1 := by
  obtain ⟨writes, ran, -⟩ := meets batch.input sized
  by_contra several
  exact not_some_of_stride sized several ran

/-- A ring with fewer words than a block has gets no writes, so the ring has whole blocks. -/
theorem wide_of_meets (sized : batch.Sized transforms) (meets : batch.Meets transforms) :
    64 ∣ batch.layout.N := by
  obtain ⟨writes, ran, computes⟩ := meets batch.input sized
  have giantPos := sized.gStep_pos
  have transformsPos := sized.transforms_pos
  have outPos : 0 < batch.out.length := by
    rw [out_length sized (single_of_meets sized meets)]
    positivity
  have power : batch.layout.N = 2 ^ batch.layout.logN := rfl
  rcases Nat.lt_or_ge batch.layout.logN 6 with small | large
  · have narrow : batch.layout.N / 64 = 0 := by
      have bound := Nat.pow_lt_pow_right (by decide : 1 < 2) small
      rw [← power] at bound
      exact Nat.div_eq_of_lt (by omega)
    have nothing := no_writes_of_narrow narrow ran
    have first := (computes.targets false 0 0 0).mpr ⟨by simp, outPos, sized.limbsize_pos, by
      rw [power]
      positivity⟩
    rw [nothing] at first
    cases first
  · rw [power]
    exact pow_dvd_pow 2 large

/-- The input with ones in one place reads one word, and has the value of its plaintext as its
product. -/
theorem wordValue_of_meets (sized : batch.Sized transforms) (meets : batch.Meets transforms)
    {i k b : Nat} (inRange : i < transforms) (inGiant : k < batch.gStep) (inBaby : b < batch.bStep)
    {special : Bool} (allowed : special → batch.ext) {limb idx : Nat}
    (inLimb : limb < batch.limbCount special) (inside : idx < batch.layout.N) :
    batch.wordValue special (i * batch.bStep * batch.gStep + k * batch.bStep + b) limb idx ≡
      batch.plaintextValue special (i * batch.bStep * batch.gStep + k * batch.bStep + b) limb idx
        [MOD batch.layout.modulus special limb] := by
  have single := single_of_meets sized meets
  have covers : batch.covered = batch.layout.N := covered_eq (wide_of_meets sized meets)
  have outs := out_length sized single
  have unitSized := unitInput_sized sized (2 * (i * batch.bStep + b))
  obtain ⟨unitWrites, unitRan, unitComputes⟩ := meets _ unitSized
  obtain ⟨stored, sameRan, stores⟩ := stores_of_returns unitSized single
    (returns_of_some unitSized single unitRan) covers
  cases unitRan.symm.trans sameRan
  have place := place_lt inRange inGiant
  have target := (unitComputes.targets special (2 * (i * batch.gStep + k) + 0) limb idx).mpr
    ⟨allowed, by
      change _ < batch.out.length
      omega, inLimb, inside⟩
  obtain ⟨write, inWrites, same⟩ := List.mem_map.mp target
  simp only [Write.target, Prod.mk.injEq] at same
  obtain ⟨rfl, here, rfl, rfl⟩ := same
  have byKernel := stores.values write inWrites
  have byProduct := unitComputes.values write inWrites i inRange 0 sized.stride_pos k inGiant 0
    (by decide) (by
      change write.position = 2 * (i * batch.stride * batch.gStep + 0 * batch.gStep + k) + 0
      simp only [here, single, mul_one, zero_mul, add_zero])
  have halves : write.position / 2 = i * batch.gStep + k := by omega
  have parity : write.position % 2 = 0 := by omega
  rw [halves, parity] at byKernel
  change write.value = dot _ write.special 0 write.limb write.idx
    ((i * batch.gStep + k) / batch.gStep) ((i * batch.gStep + k) % batch.gStep) batch.bStep
      at byKernel
  rw [place_div inGiant, Nat.mul_add_mod_of_lt inGiant] at byKernel
  have kernel := unitInput_sum sized single write.special inRange inBaby write.limb write.idx
    fun b' => batch.wordValue write.special
      (i * batch.bStep * batch.gStep + k * batch.bStep + b') write.limb write.idx
  have denoted := unitInput_sum sized single write.special inRange inBaby write.limb write.idx
    fun b' => batch.plaintextValue write.special
      (i * batch.gStep * batch.bStep + k * batch.bStep + b') write.limb write.idx
  have order : i * batch.gStep * batch.bStep + k * batch.bStep + b =
      i * batch.bStep * batch.gStep + k * batch.bStep + b := by ring
  rw [order] at denoted
  have equal := byKernel.symm.trans byProduct
  unfold dot product at equal
  change (∑ b' ∈ Finset.range batch.bStep, _) % batch.layout.modulus write.special write.limb =
    (∑ b' ∈ Finset.range batch.bStep,
      inputValue { batch with input := batch.unitInput (2 * (i * batch.bStep + b)) } write.special
        (2 * (i * batch.stride * batch.bStep + 0 * batch.bStep + b') + 0) write.limb write.idx * _) %
      batch.layout.modulus write.special write.limb at equal
  rw [single, mul_one, zero_mul, add_zero] at equal
  unfold Nat.ModEq
  rw [← denoted]
  nth_rewrite 1 [← kernel]
  exact equal

theorem faithful_of_meets (sized : batch.Sized transforms) (meets : batch.Meets transforms) :
    batch.Faithful := by
  obtain ⟨writes, ran, -⟩ := meets batch.input sized
  have single := single_of_meets sized meets
  have wide := wide_of_meets sized meets
  have returns := returns_of_some sized single ran
  refine ⟨single, wide, returns.heads, ?_⟩
  intro part member special allowed limb inLimb idx inside
  obtain ⟨position, found⟩ := List.getElem?_of_mem member
  have present : position < batch.pt.length := by
    obtain ⟨bound, -⟩ := List.getElem?_eq_some_iff.mp found
    exact bound
  have readable := returns.readable special allowed position present limb inLimb idx
    (by rwa [covered_eq wide])
  rw [readWord_of_part found, shift_eq sized wide] at readable
  obtain ⟨word, stored⟩ := Option.isSome_iff_exists.mp readable
  refine ⟨word, stored, ?_⟩
  rw [sized.pt] at present
  obtain ⟨i, inRange, k, inGiant, b, inBaby, rfl⟩ := exists_pt_place present
  have same := wordValue_of_meets sized meets inRange inGiant inBaby allowed inLimb inside
  rw [wordValue, readWord_of_part found, shift_eq sized wide, stored, Option.getD_some,
    plaintextValue_of_part found] at same
  exact same

/-- A batch computes its products exactly where each plaintext has one ciphertext, each call
starts with a plaintext, and the slot count of the call fits its plaintexts. -/
theorem dotProduct_iff (sized : batch.Sized transforms) :
    batch.Meets transforms ↔ batch.Faithful := by
  constructor
  · intro meets
    exact faithful_of_meets sized meets
  · intro faithful
    exact meets_of_faithful faithful

/-- This is one transform on a ring of 64 coefficients. Its plaintexts have one slot. -/
def sampleBatch (pt : List (Option PlaintextPart)) (stride : Nat) : Batch where
  layout :=
    { logN := 6
      limbsize := 1
      special_start := 0
      slimbsize := 0
      prime := fun _ => 257
      specialPrime := fun _ => 769
      num_parallel_parts := 1 }
  out := List.replicate (2 * stride) ⟨1, fun _ _ => 0, fun _ _ => 0⟩
  input := List.replicate (2 * stride * pt.length) ⟨1, fun _ _ => 1, fun _ _ => 1⟩
  pt := pt
  bStep := pt.length
  gStep := 1
  stride := stride
  ext := false
  slots := 1

def samplePart : PlaintextPart := ⟨1, 1, fun _ => [3, 4], fun _ => [3, 4]⟩

theorem sampleBatch_sized {pt : List (Option PlaintextPart)} {stride : Nat} (some_pt : 0 < pt.length)
    (some_stride : 0 < stride) (parts : ∀ part, some part ∈ pt → part = samplePart) :
    (sampleBatch pt stride).Sized 1 where
  transforms_pos := by decide
  bStep_pos := some_pt
  gStep_pos := Nat.one_pos
  stride_pos := some_stride
  parallel_pos := Nat.one_pos
  limbsize_pos := Nat.one_pos
  modulus_pos := by
    intro special limb
    cases special with
    | false => exact (by decide : 0 < 257)
    | true => exact (by decide : 0 < 769)
  out := by simp [sampleBatch]
  input := by
    simp only [sampleBatch, List.length_replicate]
    ring
  pt := by simp [sampleBatch]
  limbs := by
    simp only [checkLimbs, sampleBatch, Bool.and_eq_true]
    refine ⟨⟨by simp, by simp⟩, ?_⟩
    rw [List.all_eq_true]
    intro part member
    cases part with
    | none => rfl
    | some part =>
        rw [parts part member]
        rfl
  slots := ⟨Nat.one_ne_zero, (by decide : 2 ∣ 2 ^ 6)⟩
  parts := by
    intro part member
    rw [parts part member]
    refine ⟨by decide, (by decide : 2 ∣ 2 ^ 6), ?_⟩
    intro special limb
    cases special <;> rfl

theorem dotProduct_iff_sample :
    (sampleBatch [some samplePart, none] 1).Meets 1 ↔
      (sampleBatch [some samplePart, none] 1).Faithful :=
  dotProduct_iff (sampleBatch_sized (by decide) (by decide) (by simp))

/-- A null plaintext in front of the others stops the call, and so does a second ciphertext. -/
theorem dotProduct_stops :
    ((sampleBatch [none, some samplePart] 1).Sized 1 ∧
        ¬(sampleBatch [none, some samplePart] 1).Meets 1) ∧
      (sampleBatch [some samplePart] 2).Sized 1 ∧ ¬(sampleBatch [some samplePart] 2).Meets 1 := by
  have nullFirst : (sampleBatch [none, some samplePart] 1).Sized 1 :=
    sampleBatch_sized (by decide) (by decide) (by simp)
  have several : (sampleBatch [some samplePart] 2).Sized 1 :=
    sampleBatch_sized (by decide) (by decide) (by simp)
  refine ⟨⟨nullFirst, fun meets => ?_⟩, several, fun meets => ?_⟩
  · obtain ⟨writes, ran, -⟩ := meets _ nullFirst
    obtain ⟨part, found⟩ := (returns_of_some nullFirst rfl ran).heads 0 (by decide) (by simp)
    cases found
  · obtain ⟨writes, ran, -⟩ := meets _ several
    exact not_some_of_stride several (by decide) ran

end Fideslib.LinearTransform.Batch
