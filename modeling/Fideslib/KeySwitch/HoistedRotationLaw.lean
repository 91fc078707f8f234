/-
This file describes the words that the hoisted rotations compute.
-/

import Fideslib.KeySwitch.DotKeySwitch
import Fideslib.KeySwitch.HoistedRotation
import Fideslib.Library.PartialLists

namespace Fideslib.KeySwitch

open Fideslib.Modular
open Constants (SetupConstants)

section Accumulation

variable {p : Nat} (modulus : Modulus p)

include modulus

/-- The sum of the digits is reduced after each product. -/
theorem accumulate_spec {start : Option Nat} (small : ∀ in2 ∈ start, in2 < p) {add : Nat → Nat}
    {count : Nat} (terms : ∀ i, i < count + 1 → add i < p) :
    accumulate p start add (count + 1) < p ∧
      (accumulate p start add (count + 1) : ZMod p) =
        (start.getD 0 : Nat) + ∑ i ∈ Finset.range (count + 1), (add i : ZMod p) := by
  induction count with
  | zero =>
      have first := terms 0 (by omega)
      rw [Finset.sum_range_one]
      cases start with
      | none =>
          change add 0 < p ∧ (add 0 : ZMod p) = (0 : Nat) + add 0
          exact ⟨first, by rw [Nat.cast_zero, zero_add]⟩
      | some in2 =>
          have begin := small in2 rfl
          exact ⟨modadd_lt modulus begin first, modadd_cast modulus begin first⟩
  | succ count inductionHypothesis =>
      obtain ⟨below, residue⟩ := inductionHypothesis fun i inside => terms i (by omega)
      have next := terms (count + 1) (by omega)
      have step : accumulate p start add (count + 1 + 1) =
          modadd (accumulate p start add (count + 1)) (add (count + 1)) p := by
        rw [accumulate, List.range_succ, List.foldl_append, List.foldl_cons, List.foldl_nil,
          if_neg count.succ_ne_zero]
        rfl
      rw [step, Finset.sum_range_succ, ← add_assoc, ← residue]
      exact ⟨modadd_lt modulus below next, modadd_cast modulus below next⟩

end Accumulation

section Table

variable {raw : RawParams} (digits : Digits raw)

/-- The keys follow each other in the table, and the operand comes last. -/
def hoistEntry (source : DigitPoly) (ksk : Nat → KeySwitchingKey) (entry : Nat) : Nat → Limb :=
  let block := entry / digits.dnum
  let polynomial := blockPoly source (ksk (block / 6)) (block % 6 % 3)
  if block % 6 < 3 then polynomial.DIGITlimb (entry % digits.dnum) else polynomial.limb

variable {digits} {num_d n : Nat} (within : num_d ≤ digits.dnum) (source : DigitPoly)
  (ksk : Nat → KeySwitchingKey)

theorem hoistEntry_eq {i : Nat} (inside : i < digits.dnum) (k : Nat) {block : Nat}
    (six : block < 6) :
    hoistEntry digits source ksk (i + (k * 6 + block) * digits.dnum) =
      if block < 3 then (blockPoly source (ksk k) (block % 3)).DIGITlimb i
      else (blockPoly source (ksk k) (block % 3)).limb := by
  obtain ⟨quotient, remainder⟩ := block_div inside (k * 6 + block)
  have low : (k * 6 + block) % 6 = block := by omega
  have high : (k * 6 + block) / 6 = k := by omega
  simp only [hoistEntry, quotient, remainder, low, high]

include within

theorem hoistPointers_determined :
    Scatter.Determined (hoistPointers digits n num_d source ksk) (hoistEntry digits source ksk) := by
  have own : ∀ {i k block : Nat} {entry : Nat}, i < digits.dnum → block < 6 →
      entry = i + (k * 6 + block) * digits.dnum → hoistEntry digits source ksk entry =
        if block < 3 then (blockPoly source (ksk k) (block % 3)).DIGITlimb i
        else (blockPoly source (ksk k) (block % 3)).limb := by
    intro i k block entry inside six place
    rw [place]
    exact hoistEntry_eq source ksk inside k six
  intro write mem
  rcases List.mem_append.mp mem with key | operand
  · obtain ⟨k, -, mem⟩ := List.mem_flatMap.mp key
    obtain ⟨i, range, entry⟩ := List.mem_flatMap.mp mem
    have inside : i < digits.dnum := (List.mem_range.mp range).trans_le within
    simp only [List.mem_cons, List.not_mem_nil, or_false] at entry
    rcases entry with rfl | rfl | rfl | rfl
    · exact (own inside (show 1 < 6 by omega) (by ring)).symm
    · exact (own inside (show 2 < 6 by omega) (by ring)).symm
    · exact (own inside (show 4 < 6 by omega) (by ring)).symm
    · exact (own inside (show 5 < 6 by omega) (by ring)).symm
  · obtain ⟨i, range, entry⟩ := List.mem_flatMap.mp operand
    have inside : i < digits.dnum := (List.mem_range.mp range).trans_le within
    simp only [List.mem_cons, List.not_mem_nil, or_false] at entry
    rcases entry with rfl | rfl
    · have zero : n * digits.dnum * 6 + i = i + (n * 6 + 0) * digits.dnum := by ring
      exact (own inside (show 0 < 6 by omega) zero).symm
    · exact (own inside (show 3 < 6 by omega) (by ring)).symm

/-- Each key of the table has its own part. -/
theorem hoistPointers_key (stale : PointerTable) {j : Nat} (key : j < n) {block : Nat}
    (half : block = 1 ∨ block = 2) :
    Points digits (fun entry => Scatter.commit (hoistPointers digits n num_d source ksk) stale
        (j * 3 * 2 * digits.dnum + entry)) num_d block ((ksk j).half (if block = 1 then .c1 else .c0)) := by
  intro i inside
  have below : i < digits.dnum := inside.trans_le within
  have determined : Scatter.Determined (hoistPointers digits n num_d source ksk) _ :=
    hoistPointers_determined within source ksk
  have written : ∀ write ∈ [(j * digits.dnum * 6 + i + digits.dnum, (ksk j).a.DIGITlimb i),
      (j * digits.dnum * 6 + i + 2 * digits.dnum, (ksk j).b.DIGITlimb i),
      (j * digits.dnum * 6 + i + 4 * digits.dnum, (ksk j).a.limb),
      (j * digits.dnum * 6 + i + 5 * digits.dnum, (ksk j).b.limb)],
      Scatter.commit (hoistPointers digits n num_d source ksk) stale write.1 = write.2 :=
    fun write mem => Scatter.commit_written determined
      (List.mem_append_left _ (List.mem_flatMap.mpr ⟨j, List.mem_range.mpr key,
        List.mem_flatMap.mpr ⟨i, List.mem_range.mpr inside, mem⟩⟩)) stale
  simp only [List.forall_mem_cons] at written
  obtain ⟨aDigit, bDigit, aLimb, bLimb, -⟩ := written
  have place : ∀ c, j * 3 * 2 * digits.dnum + (i + c * digits.dnum) =
      j * digits.dnum * 6 + i + c * digits.dnum := by
    intro c
    ring
  have chain : ∀ c, i + c * digits.dnum + 3 * digits.dnum = i + (c + 3) * digits.dnum := by
    intro c
    ring
  dsimp only
  rw [chain, place, place]
  rcases half with rfl | rfl
  · rw [Nat.one_mul, aDigit, aLimb]
    exact ⟨rfl, rfl⟩
  · rw [bDigit, bLimb]
    exact ⟨rfl, rfl⟩

theorem hoistPointers_operand (stale : PointerTable) :
    Points digits (fun entry => Scatter.commit (hoistPointers digits n num_d source ksk) stale
        (n * digits.dnum * 6 + entry)) num_d 0 source := by
  intro i inside
  have determined : Scatter.Determined (hoistPointers digits n num_d source ksk) _ :=
    hoistPointers_determined within source ksk
  have written : ∀ write ∈ [(n * digits.dnum * 6 + i, source.DIGITlimb i),
      (n * digits.dnum * 6 + i + 3 * digits.dnum, source.limb)],
      Scatter.commit (hoistPointers digits n num_d source ksk) stale write.1 = write.2 :=
    fun write mem => Scatter.commit_written determined
      (List.mem_append_right _ (List.mem_flatMap.mpr ⟨i, List.mem_range.mpr inside, mem⟩)) stale
  simp only [List.forall_mem_cons] at written
  obtain ⟨extension, chain, -⟩ := written
  dsimp only
  rw [Nat.zero_mul, Nat.add_zero, ← Nat.add_assoc, extension, chain]
  exact ⟨rfl, rfl⟩

end Table

section Fused

variable {raw : RawParams} (generated : raw.Generated) {digits : Digits raw} {level : Nat}
  (bound : level < raw.L)

include generated bound

/-- The sum with reduced products has the residue of the inner product. -/
theorem accumulate_dot {source key : DigitPoly} (sourceReduced : digits.Reduced level source)
    (keyReduced : digits.Reduced level key) {id idx : Nat} (live : raw.Live level id)
    (column : idx < raw.N) {first second : Nat → Nat}
    (factors : ∀ i, i < digits.num_d (level + 1) → first i = digits.operand source i id idx ∧
      second i = digits.operand key i id idx) {start : Option Nat}
    (small : ∀ in2 ∈ start, in2 < raw.prime id) :
    let sum := accumulate (raw.prime id) start (fun i =>
      modmult .barrett (first i) (second i) (raw.prime id) 0) (digits.num_d (level + 1))
    sum < raw.prime id ∧ (sum : ZMod (raw.prime id)) =
      (start.getD 0 : Nat) + digits.dot level source key id idx := by
  have modulus := generated.modulus (live.inside bound)
  have positive := digits.digit_lt_num_d (Nat.zero_le level) (by omega)
  obtain ⟨count, total⟩ := Nat.exists_eq_succ_of_ne_zero (show digits.num_d (level + 1) ≠ 0 by omega)
  have terms : ∀ i, i < count + 1 →
      modmult .barrett (first i) (second i) (raw.prime id) 0 < raw.prime id := by
    intro i inside
    rw [(factors i (by omega)).1, (factors i (by omega)).2]
    exact barrett_lt modulus (sourceReduced i (by omega) id live idx column)
      (keyReduced i (by omega) id live idx column)
  obtain ⟨below, residue⟩ := accumulate_spec modulus small terms
  dsimp only
  rw [total]
  refine ⟨below, ?_⟩
  rw [residue, Digits.dot, total, Nat.cast_sum]
  congr 1
  apply Finset.sum_congr rfl
  intro i member
  have inside : i < digits.num_d (level + 1) := by
    have range := Finset.mem_range.mp member
    omega
  rw [(factors i inside).1, (factors i inside).2, Nat.cast_mul,
    barrett_cast modulus (sourceReduced i inside id live idx column)
      (keyReduced i inside id live idx column)]

end Fused

/-- A word of the operand enters the sum where the operand has one or is scaled to have one. -/
def RNSPoly.addend (raw : RawParams) (c0 : RNSPoly) (id idx : Nat) : Option Nat :=
  if c0.modUp ∨ id < raw.L then
    some (if ¬c0.modUp ∧ id < raw.L then scaleByP_ (SetupConstants raw) id (c0.limb id) idx
      else c0.word raw id idx)
  else none

/-- A regular polynomial stands for its multiple by the special primes. -/
def RNSPoly.scaled (raw : RawParams) (poly : RNSPoly) (id idx : Nat) : ZMod (raw.prime id) :=
  if poly.modUp then poly.word raw id idx
  else if id < raw.L then raw.P * poly.limb id idx
  else 0

/-- The product with the key and the multiple of the first component add up. -/
def Digits.rotatedResidue {raw : RawParams} (digits : Digits raw) (level : Nat)
    (source : DigitPoly) (ksk : KeySwitchingKey) (c0 : RNSPoly) (component : Component)
    (id idx : Nat) : ZMod (raw.prime id) :=
  digits.dot level source (ksk.half component) id idx +
    match component with
    | .c0 => c0.scaled raw id idx
    | .c1 => 0

/-- A reduced word is the representative of its residue. -/
theorem word_val {p word : Nat} (small : word < p) {residue : ZMod p} (same : (word : ZMod p) = residue) :
    word = residue.val := by
  rw [← same, ZMod.val_cast_of_lt small]

section Addend

variable {raw : RawParams} (generated : raw.Generated) {level : Nat} {c0 : RNSPoly}
  (canonical : c0.Canonical raw) (low : level ≤ c0.level) {id idx : Nat}
  (live : raw.Live level id) (column : idx < raw.N)

include generated

theorem scale_lt {x : Limb} (regular : id < raw.L) (small : x idx < raw.prime id) :
    scaleByP_ (SetupConstants raw) id x idx < raw.prime id := by
  have modulus := generated.modulus (show id < raw.L + raw.K by omega)
  have factor := P_lt generated regular
  rw [← raw.prime_q regular] at factor
  exact modmult_lt modulus .shoup small factor

/-- The table of the device has the residues of the product of the special primes. -/
theorem P_cast (regular : id < raw.L) :
    ((SetupConstants raw).P id : ZMod (raw.prime id)) = raw.P := by
  have inverse := generated.inverse_cast regular
  have own := P_inv_mul_P generated regular
  rw [← raw.prime_q regular] at inverse own
  change (raw.PInvModq.getD id 0 : ZMod (raw.prime id)) * (SetupConstants raw).P id = 1 at own
  calc ((SetupConstants raw).P id : ZMod (raw.prime id))
      = raw.PInvModq.getD id 0 * raw.P * (SetupConstants raw).P id := by rw [inverse, one_mul]
    _ = raw.PInvModq.getD id 0 * (SetupConstants raw).P id * raw.P := by ring
    _ = raw.P := by rw [own, one_mul]

theorem scale_cast {x : Limb} (regular : id < raw.L) (small : x idx < raw.prime id) :
    (scaleByP_ (SetupConstants raw) id x idx : ZMod (raw.prime id)) = raw.P * x idx := by
  have modulus := generated.modulus (show id < raw.L + raw.K by omega)
  have factor := P_lt generated regular
  rw [← raw.prime_q regular] at factor
  have product := modmult_cast modulus .shoup small factor
  rw [P_cast generated regular] at product
  rw [mul_comm]
  exact product

include canonical low live column

omit generated in
theorem canonical_word (present : c0.modUp ∨ id < raw.L) : c0.word raw id idx < raw.prime id := by
  rw [RNSPoly.word]
  by_cases regular : id < raw.L
  · rw [if_pos regular, raw.prime_q regular]
    rcases live with below | special
    · exact canonical.limb id (by omega) idx column
    · omega
  · rw [if_neg regular]
    have extended := present.resolve_right regular
    rcases live with below | special
    · have bounded := canonical.level
      omega
    · have small := canonical.special extended (id - raw.L) (by omega) idx column
      rwa [← raw.prime_p, Nat.add_sub_cancel' special.1] at small

theorem addend_spec :
    (∀ in2 ∈ c0.addend raw id idx, in2 < raw.prime id) ∧
      ((c0.addend raw id idx).getD 0 : ZMod (raw.prime id)) = c0.scaled raw id idx := by
  by_cases extended : c0.modUp
  · have small := canonical_word canonical low live column (Or.inl extended)
    have value : c0.addend raw id idx = some (c0.word raw id idx) := by
      rw [RNSPoly.addend, if_pos (Or.inl extended), if_neg (fun both => both.1 extended)]
    rw [value, RNSPoly.scaled, if_pos extended, Option.getD_some]
    exact ⟨fun in2 mem => (Option.mem_some_iff.mp mem) ▸ small, rfl⟩
  · by_cases regular : id < raw.L
    · have small := canonical_word canonical low live column (Or.inr regular)
      rw [RNSPoly.word, if_pos regular] at small
      have value : c0.addend raw id idx =
          some (scaleByP_ (SetupConstants raw) id (c0.limb id) idx) := by
        rw [RNSPoly.addend, if_pos (Or.inr regular), if_pos ⟨extended, regular⟩]
      rw [value, RNSPoly.scaled, if_neg extended, if_pos regular, Option.getD_some]
      exact ⟨fun in2 mem => (Option.mem_some_iff.mp mem) ▸ scale_lt generated regular small,
        scale_cast generated regular small⟩
    · have value : c0.addend raw id idx = none := by
        rw [RNSPoly.addend, if_neg (not_or.mpr ⟨extended, regular⟩)]
      rw [value, RNSPoly.scaled, if_neg extended, if_neg regular, Option.getD_none, Nat.cast_zero]
      exact ⟨fun in2 mem => absurd mem (Option.not_mem_none in2), rfl⟩

end Addend

section Kernel

/-- The thread reads the word of the operand in the row of its prime. -/
theorem addend_eq (raw : RawParams) (c0 : RNSPoly) (id idx : Nat) :
    (if c0.modUp = true ∨ id < (SetupConstants raw).L then
      some (if ¬c0.modUp = true ∧ id < (SetupConstants raw).L then
        modmult .shoup
          (if id < (SetupConstants raw).L then c0.limb (raw.row id - raw.K) idx
            else c0.special (id - (SetupConstants raw).L) idx)
          ((SetupConstants raw).P id) ((SetupConstants raw).primes id)
          ((SetupConstants raw).P_shoup id)
        else if id < (SetupConstants raw).L then c0.limb (raw.row id - raw.K) idx
        else c0.special (id - (SetupConstants raw).L) idx)
      else none) = c0.addend raw id idx := by
  have length : (SetupConstants raw).L = raw.L := rfl
  have word : (if id < raw.L then c0.limb (raw.row id - raw.K) idx
      else c0.special (id - raw.L) idx) = c0.word raw id idx := by
    rw [RNSPoly.word, RawParams.row]
    by_cases regular : id < raw.L
    · rw [if_pos regular, if_pos regular, if_pos regular, Nat.add_sub_cancel_left]
    · rw [if_neg regular, if_neg regular]
  rw [length, word, RNSPoly.addend]
  by_cases scales : ¬c0.modUp = true ∧ id < raw.L
  · rw [if_pos scales, if_pos scales, RNSPoly.word, if_pos scales.2]
    rfl
  · rw [if_neg scales, if_neg scales]

variable {raw : RawParams} (generated : raw.Generated) {digits : Digits raw} {level : Nat}
  (bound : level < raw.L)

include generated bound

/-- Each thread writes the words of its two results for each rotation to the moved slot. -/
theorem hoistedRotateDotKSK_2_row {source : DigitPoly} (sourceReduced : digits.Reduced level source)
    {n : Nat} {ksk : Nat → KeySwitchingKey}
    (keysReduced : ∀ j, j < n → ∀ component, digits.Reduced level ((ksk j).half component))
    {c0 : RNSPoly} (canonical : c0.Canonical raw) (low : level ≤ c0.level) (stale : PointerTable)
    (indexes out : Nat → Nat) {id idx : Nat} (live : raw.Live level id) (column : idx < raw.N) :
    hoistedRotateDotKSK_2_ (SetupConstants raw) digits
        (Scatter.commit (hoistPointers digits n (digits.num_d (level + 1)) source ksk) stale)
        (n * digits.dnum * 6) c0 n indexes out (digits.num_d (level + 1)) digits.num_special
        c0.modUp (raw.row id, idx) =
      (List.range n).flatMap fun j => [.c1, .c0].map fun component =>
        (outputCell (SetupConstants raw) component (out j) id id
            (automorph_slot raw.logN (indexes j) idx),
          (digits.rotatedResidue level source (ksk j) c0 component id idx).val) := by
  have within := digits.num_d_le (level + 1)
  have sourcePoints := @hoistPointers_operand _ _ _ n within source ksk stale
  obtain ⟨small, residue⟩ := addend_spec generated canonical low live column
  have none_small : ∀ in2 ∈ (none : Option Nat), in2 < raw.prime id :=
    fun in2 mem => absurd mem (Option.not_mem_none in2)
  dsimp only [hoistedRotateDotKSK_2_]
  rw [digits.num_special_eq, rowPrime_row digits bound live, addend_eq]
  apply List.flatMap_congr
  intro j mem
  have key := List.mem_range.mp mem
  have aPoints := hoistPointers_key within source ksk stale key (Or.inl rfl)
  have bPoints := hoistPointers_key within source ksk stale key (Or.inr rfl)
  have first := accumulate_dot generated bound sourceReduced (keysReduced j key .c1) live column
    (fun i inside => ⟨congrFun (readDigit_eq sourcePoints inside) idx,
      congrFun (readDigit_eq aPoints inside) idx⟩) none_small
  have second := accumulate_dot generated bound sourceReduced (keysReduced j key .c0) live column
    (fun i inside => ⟨congrFun (readDigit_eq sourcePoints inside) idx,
      congrFun (readDigit_eq bPoints inside) idx⟩) small
  have firstWord := word_val first.1 (show _ = digits.rotatedResidue level source (ksk j) c0 .c1 id idx by
    rw [first.2, Option.getD_none, Nat.cast_zero, zero_add, Digits.rotatedResidue, add_zero])
  have secondWord := word_val second.1 (show _ = digits.rotatedResidue level source (ksk j) c0 .c0 id idx by
    rw [second.2, residue, add_comm]
    rfl)
  rw [outputCell_row, outputCell_row]
  exact congrArg₂ (fun aux1 aux2 => [
    (outputCell (SetupConstants raw) .c1 (out j) id id (automorph_slot raw.logN (indexes j) idx), aux1),
    (outputCell (SetupConstants raw) .c0 (out j) id id (automorph_slot raw.logN (indexes j) idx), aux2)])
    firstWord secondWord

end Kernel

/-- The inverse of the multiplier that moves the slots of a rotation. -/
def Undoes (raw : RawParams) (actual_index inverse : Nat) : Prop :=
  inverse % 2 = 1 ∧
    automorph_index_precomp actual_index raw.N * inverse % 2 ^ (raw.logN + 1) = 1

theorem exists_undoes (raw : RawParams) (actual_index : Nat) :
    ∃ inverse, Undoes raw actual_index inverse :=
  odd_inverse (automorph_index_odd actual_index raw.N) raw.logN

section Launch

variable {raw : RawParams} (generated : raw.Generated) (narrow : raw.logN ≤ 30)
  {digits : Digits raw} {level : Nat} (bound : level < raw.L) {source : DigitPoly}
  (sourceReduced : digits.Reduced level source) {c0 : RNSPoly} (canonical : c0.Canonical raw)
  (low : level ≤ c0.level)

include generated narrow bound sourceReduced canonical low

/-- The fused launch leaves the moved sums in each of its results. -/
theorem hoisted_launch {n : Nat} {ksk : Nat → KeySwitchingKey}
    (keysReduced : ∀ j, j < n → ∀ component, digits.Reduced level ((ksk j).half component))
    {indexes out inverse : Nat → Nat} (distinct : Set.InjOn out (Set.Iio n))
    (undone : ∀ j, j < n → indexes j % 2 = 1 ∧ inverse j % 2 = 1 ∧
      indexes j * inverse j % 2 ^ (raw.logN + 1) = 1)
    {order : List (Nat × Nat)} (covers : Covers order (raw.K + (level + 1)) raw.N)
    (stale : PointerTable) (memory : Cell → Nat) {j : Nat} (key : j < n) (component : Component)
    {id slot : Nat} (live : raw.Live level id) (inside : slot < raw.N) :
    Scatter.launch (hoistedRotateDotKSK_2_ (SetupConstants raw) digits
        (Scatter.commit (hoistPointers digits n (digits.num_d (level + 1)) source ksk) stale)
        (n * digits.dnum * 6) c0 n indexes out (digits.num_d (level + 1)) digits.num_special
        c0.modUp) order memory (outputCell (SetupConstants raw) component (out j) id id slot) =
      (digits.rotatedResidue level source (ksk j) c0 component id
        (automorph_slot raw.logN (inverse j) slot)).val := by
  have row := fun {id idx : Nat} => @hoistedRotateDotKSK_2_row raw generated digits level bound
    source sourceReduced n ksk keysReduced c0 canonical low stale indexes out id idx
  have place : ∀ i, i < n → Function.invFunOn out (Set.Iio n) (out i) = i := fun i below =>
    distinct.leftInvOn_invFunOn below
  -- The slot and the result of a cell determine the thread that writes it.
  have determined : ∀ thread ∈ order, Scatter.Determined
      (hoistedRotateDotKSK_2_ (SetupConstants raw) digits
        (Scatter.commit (hoistPointers digits n (digits.num_d (level + 1)) source ksk) stale)
        (n * digits.dnum * 6) c0 n indexes out (digits.num_d (level + 1)) digits.num_special
        c0.modUp thread)
      (fun cell =>
        let i := Function.invFunOn out (Set.Iio n) cell.result
        (digits.rotatedResidue level source (ksk i) c0 cell.component (cell.prime raw)
          (automorph_slot raw.logN (inverse i) cell.idx)).val) := by
    intro thread runs write mem
    obtain ⟨inRow, column⟩ := (covers thread.1 thread.2).mp runs
    obtain ⟨alive, same⟩ := rowPrime_live digits bound inRow
    have written := row alive column
    rw [same] at written
    rw [written] at mem
    obtain ⟨i, range, entry⟩ := List.mem_flatMap.mp mem
    obtain ⟨half, -, rfl⟩ := List.mem_map.mp entry
    have below := List.mem_range.mp range
    obtain ⟨indexOdd, -, cancels⟩ := undone i below
    have fields := outputCell_fields (SetupConstants raw) half (out i)
      (rowPrime digits thread.1 raw.K) (rowPrime digits thread.1 raw.K)
      (automorph_slot raw.logN (indexes i) thread.2)
    dsimp only
    rw [fields.1, fields.2.1, fields.2.2, outputCell_prime, place i below,
      automorph_slot_inverse (by omega) indexOdd cancels column]
  obtain ⟨indexOdd, inverseOdd, cancels⟩ := undone j key
  have column : automorph_slot raw.logN (inverse j) slot < raw.N := automorph_slot_lt (by omega) _ _
  have runs : (raw.row id, automorph_slot raw.logN (inverse j) slot) ∈ order :=
    (covers _ _).mpr ⟨live.row_lt bound, column⟩
  have back := automorph_slot_inverse (show raw.logN ≤ 31 by omega) inverseOdd
    (Nat.mul_comm (indexes j) (inverse j) ▸ cancels) inside
  have own := outputCell_fields (SetupConstants raw) component (out j) id id slot
  rw [Scatter.launch_determined determined runs]
  · dsimp only
    rw [own.1, own.2.1, own.2.2, outputCell_prime, place j key]
  · rw [row live column]
    refine ⟨_, List.mem_flatMap.mpr ⟨j, List.mem_range.mpr key, List.mem_map.mpr
      ⟨component, by cases component <;> simp, rfl⟩⟩, ?_⟩
    dsimp only
    rw [back]

theorem hoistedRotationFused_word (around : Surroundings) {rotated : List Rotated}
    (distinct : (rotated.map Rotated.result).Nodup)
    (keysReduced : ∀ entry ∈ rotated, ∀ component,
      digits.Reduced level (entry.ksk.half component))
    (rotation : ∀ entry ∈ rotated, entry.actual_index ≠ 2 * raw.N - 1)
    (covers : Covers around.fused (raw.K + (level + 1)) raw.N)
    (results : Nat → Component → RNSPoly) {entry : Rotated} (mem : entry ∈ rotated) {inverse : Nat}
    (undoes : Undoes raw entry.actual_index inverse) (component : Component) {id slot : Nat}
    (live : raw.Live level id) (inside : slot < raw.N) :
    (hoistedRotationFused digits (SetupConstants raw) around rotated results source c0 level
        entry.result component).word raw id slot =
      (digits.rotatedResidue level source entry.ksk c0 component id
        (automorph_slot raw.logN inverse slot)).val := by
  have entries : ∀ j, j < rotated.length → rotated.getD j default ∈ rotated := by
    intro j below
    rw [← List.getElem_eq_getD default]
    exact List.getElem_mem below
  have injective : Set.InjOn (fun j => (rotated.getD j default).result) (Set.Iio rotated.length) := by
    intro i first j second same
    have left := Set.mem_Iio.mp first
    have right := Set.mem_Iio.mp second
    dsimp only at same
    rw [← @List.getElem_eq_getD _ _ i left, ← @List.getElem_eq_getD _ _ j right] at same
    have here : i < (rotated.map Rotated.result).length := by rwa [List.length_map]
    have there : j < (rotated.map Rotated.result).length := by rwa [List.length_map]
    have equal : (rotated.map Rotated.result)[i] = (rotated.map Rotated.result)[j] := by
      rw [List.getElem_map, List.getElem_map, same]
    exact distinct.getElem_inj_iff.mp equal
  obtain ⟨j, below, found⟩ := List.getElem_of_mem mem
  rw [List.getElem_eq_getD default] at found
  have index : ∀ i, i < rotated.length →
      (if (rotated.getD i default).actual_index = 2 * raw.N - 1 then 2 * raw.N - 1
        else automorph_index_precomp (rotated.getD i default).actual_index raw.N) =
      automorph_index_precomp (rotated.getD i default).actual_index raw.N := fun i inside =>
    if_neg (rotation _ (entries i inside))
  choose other undo using exists_undoes raw
  have undone : ∀ i, i < rotated.length →
      (if (rotated.getD i default).actual_index = 2 * raw.N - 1 then 2 * raw.N - 1
        else automorph_index_precomp (rotated.getD i default).actual_index raw.N) % 2 = 1 ∧
      (if (rotated.getD i default).actual_index = entry.actual_index then inverse
        else other (rotated.getD i default).actual_index) % 2 = 1 ∧
      (if (rotated.getD i default).actual_index = 2 * raw.N - 1 then 2 * raw.N - 1
        else automorph_index_precomp (rotated.getD i default).actual_index raw.N) *
        (if (rotated.getD i default).actual_index = entry.actual_index then inverse
        else other (rotated.getD i default).actual_index) % 2 ^ (raw.logN + 1) = 1 := by
    intro i inside
    rw [index i inside]
    by_cases same : (rotated.getD i default).actual_index = entry.actual_index
    · rw [if_pos same, same]
      exact ⟨automorph_index_odd _ _, undoes⟩
    · rw [if_neg same]
      exact ⟨automorph_index_odd _ _, undo _⟩
  have launched := hoisted_launch generated narrow bound sourceReduced canonical low
    (fun i inside => keysReduced _ (entries i inside)) injective undone covers around.stale
    (store results) below component live inside
  rw [found, if_pos rfl] at launched
  have listed : entry.result ∈ rotated.map Rotated.result := List.mem_map_of_mem mem
  simp only [hoistedRotationFused]
  rw [if_pos listed]
  have word := RNSPoly.generateSpecialLimbs_word raw ((results entry.result component).load
    (Scatter.launch (hoistedRotateDotKSK_2_ (SetupConstants raw) digits
      (Scatter.commit (hoistPointers digits rotated.length (digits.num_d (level + 1)) source
        fun i => (rotated.getD i default).ksk) around.stale)
      (rotated.length * digits.dnum * 6) c0 rotated.length
      (fun i => if (rotated.getD i default).actual_index = 2 * raw.N - 1 then 2 * raw.N - 1
        else automorph_index_precomp (rotated.getD i default).actual_index raw.N)
      (fun i => (rotated.getD i default).result) (digits.num_d (level + 1)) digits.num_special
      c0.modUp) around.fused (store results)) component entry.result) id slot
  rw [load_word] at word
  exact word.trans launched

end Launch

/-- A polynomial with reduced words on all its primes is canonical. -/
theorem RNSPoly.canonical_of_word {raw : RawParams} {poly : RNSPoly} (chain : poly.level < raw.L)
    (small : ∀ id slot, raw.Live poly.level id → slot < raw.N →
      poly.word raw id slot < raw.prime id)
    (allocated : poly.specialLimbs = 0 ∨ poly.specialLimbs = raw.K) : poly.Canonical raw where
  level := chain
  limb := by
    intro j inside slot bound
    have regular : j < raw.L := inside.trans_lt chain
    have word := small j slot (Or.inl inside) bound
    rwa [RNSPoly.word, if_pos regular, raw.prime_q regular] at word
  special := by
    intro _ k inside slot bound
    have word := small (raw.L + k) slot (Or.inr ⟨by omega, by omega⟩) bound
    rwa [RNSPoly.word, if_neg (by omega), raw.prime_p, Nat.add_sub_cancel_left] at word
  allocated := allocated

/-- The ring has an even number of coefficients. -/
theorem whole_ring {raw : RawParams} (generated : raw.Generated) : 2 * (raw.N / 2) = raw.N := by
  have dimension := generated.dimension
  rw [pow_succ] at dimension
  omega

section Unfused

variable {raw : RawParams} (generated : raw.Generated) {level : Nat} (bound : level < raw.L)

include generated bound

/-- The automorphism moves the words of each prime. -/
theorem automorph_word (narrow : raw.logN ≤ 30) {order : Nat → List Nat}
    (covers : ∀ id, raw.Live level id → ∀ j, j ∈ order id ↔ j < raw.N) (aux specialAux : Nat → Limb)
    {poly : RNSPoly} (atLevel : poly.level = level) (extended : poly.modUp) {idx inverse : Nat}
    (undoes : Undoes raw idx inverse) {id slot : Nat} (live : raw.Live level id)
    (inside : slot < raw.N) :
    (poly.automorph (SetupConstants raw) order aux specialAux idx (raw.N / 2)).word raw id slot =
      poly.word raw id (automorph_slot raw.logN inverse slot) := by
  have bits : raw.N.size - 1 = raw.logN := by
    rw [RawParams.N, Nat.size_pow, Nat.add_sub_cancel]
  have moved : ∀ a old, (∀ j, j ∈ order id ↔ j < raw.N) →
      Scatter.launch (automorph__ raw.logN (automorph_index_precomp idx raw.N) a) (order id) old
        slot = a (automorph_slot raw.logN inverse slot) := fun a old every =>
    automorph_launch (by omega) undoes.1 (automorph_index_odd _ _) undoes.2 a every old inside
  have every := covers id live
  dsimp only [RNSPoly.automorph, RNSPoly.word]
  rw [whole_ring generated, bits, if_pos extended]
  by_cases regular : id < raw.L
  · have below : id < poly.level + 1 := by
      rcases live with low | special <;> omega
    rw [if_pos regular, if_pos regular, onLimbs_inside _ _ below]
    exact moved _ _ every
  · have special : raw.L ≤ id ∧ id < raw.L + raw.K := by
      rcases live with low | special
      · omega
      · exact special
    have below : id - raw.L < (SetupConstants raw).K := by
      change id - raw.L < raw.K
      omega
    have place : (SetupConstants raw).L + (id - raw.L) = id := Nat.add_sub_cancel' special.1
    rw [if_neg regular, if_neg regular, onLimbs_inside _ _ below, place]
    exact moved _ _ every

/-- The sum of a polynomial and an extended one takes the first to the extended basis. -/
theorem addFrom_word {self a b : RNSPoly} (atLevel : self.level = level)
    (allocated : self.specialLimbs = raw.K) (canonical : a.Canonical raw) (low : level ≤ a.level)
    (lowB : level ≤ b.level) (extended : b.modUp)
    (reduced : ∀ id, raw.Live level id → ∀ idx, idx < raw.N → b.word raw id idx < raw.prime id) :
    ∃ sum, self.addFrom (SetupConstants raw) (raw.N / 2) a b = some sum ∧ sum.level = level ∧
      sum.modUp ∧ ∀ id, raw.Live level id → ∀ idx, idx < raw.N →
        sum.word raw id idx = (b.word raw id idx + a.scaled raw id idx : ZMod (raw.prime id)).val := by
  have runs : self.level ≤ a.level ∧ self.level ≤ b.level ∧
      (a.modUp = true ∨ b.modUp = true → self.specialLimbs = (SetupConstants raw).K) ∧
      (b.modUp = true ∧ ¬a.modUp = true → raw.N / 2 * 2 = (SetupConstants raw).N) :=
    ⟨by omega, by omega, fun either => allocated, fun either =>
      (Nat.mul_comm _ _).trans (whole_ring generated)⟩
  dsimp only [RNSPoly.addFrom]
  rw [if_pos runs]
  refine ⟨_, rfl, atLevel, by simp [extended], ?_⟩
  intro id live idx column
  have modulus := generated.modulus (live.inside bound)
  have small := reduced id live idx column
  have thread : idx < threads (SetupConstants raw) := by rwa [threads_eq]
  have place : bidx (SetupConstants raw) (2 * (raw.N / 2)) idx = idx := by
    rw [whole_ring generated]
    exact bidx_whole idx
  dsimp only [RNSPoly.word] at small ⊢
  rw [RNSPoly.scaled, RNSPoly.word]
  by_cases regular : id < raw.L
  · have below : id < self.level + 1 := by
      rcases live with low | special <;> omega
    simp only [regular, if_true] at small ⊢
    rw [onLimbs_inside _ _ below, launch_inside _ _ thread]
    by_cases first : a.modUp = true
    · have left := canonical_word canonical low live column (Or.inl first)
      rw [RNSPoly.word, if_pos regular] at left
      simp only [first, extended, Bool.not_true, Bool.false_and, Bool.false_eq_true, if_false,
        if_true]
      rw [add_, place]
      apply word_val (modadd_lt modulus left small)
      rw [add_comm]
      exact modadd_cast modulus left small
    · have left := canonical_word canonical low live column (Or.inr regular)
      rw [RNSPoly.word, if_pos regular] at left
      have scaled := scale_lt generated regular left
      simp only [first, extended, Bool.not_false, Bool.and_self, Bool.false_eq_true, if_true,
        if_false]
      rw [addScaleB_, place]
      apply word_val (modadd_lt modulus scaled small)
      rw [add_comm, ← scale_cast generated regular left]
      exact modadd_cast modulus scaled small
  · have special : raw.L ≤ id ∧ id < raw.L + raw.K := by
      rcases live with low | special
      · omega
      · exact special
    have below : id - raw.L < (SetupConstants raw).K := by
      change id - raw.L < raw.K
      omega
    have row : (SetupConstants raw).L + (id - raw.L) = id := Nat.add_sub_cancel' special.1
    simp only [regular, if_false, extended, Bool.or_true, if_true] at small ⊢
    rw [onLimbs_inside _ _ below, launch_inside _ _ thread, row]
    by_cases first : a.modUp = true
    · have left := canonical_word canonical low live column (Or.inl first)
      rw [RNSPoly.word, if_neg regular] at left
      simp only [first, Bool.not_true, Bool.false_and, Bool.false_eq_true, if_false, if_true]
      rw [add_, place]
      apply word_val (modadd_lt modulus left small)
      rw [add_comm]
      exact modadd_cast modulus left small
    · simp only [first, Bool.not_false, Bool.and_self, Bool.false_eq_true, if_true, if_false]
      rw [add_zero]
      exact word_val small rfl

variable {digits : Digits raw} (narrow : raw.logN ≤ 30) {source : DigitPoly}
  (sourceReduced : digits.Reduced level source) {ksk : KeySwitchingKey}
  (keyReduced : ∀ component, digits.Reduced level (ksk.half component)) {c0 : RNSPoly}
  (canonical : c0.Canonical raw) (low : level ≤ c0.level)

include narrow sourceReduced keyReduced canonical low

/-- The three steps leave the moved sums in their result. -/
theorem rotateUnfused_word (around : Surroundings) (i : Nat) {result : Component → RNSPoly}
    (atLevel : ∀ component, (result component).level = level)
    (allocated : (result .c0).specialLimbs = raw.K)
    (covers : Covers (around.dot i) (raw.K + (level + 1)) raw.N)
    (moves : ∀ component id, raw.Live level id →
      ∀ j, j ∈ around.move i component id ↔ j < raw.N) {actual_index inverse : Nat}
    (undoes : Undoes raw actual_index inverse) :
    ∃ rotated, rotateUnfused digits (SetupConstants raw) around true i c0 source ksk actual_index
        result = some rotated ∧ ∀ component id slot, raw.Live level id → slot < raw.N →
          (rotated component).modUp ∧ (rotated component).word raw id slot =
            (digits.rotatedResidue level source ksk c0 component id
              (automorph_slot raw.logN inverse slot)).val := by
  have products := fun {id idx : Nat} => @dotKSKInPlaceFrom_word raw generated digits level bound
    source ksk sourceReduced (keyReduced .c1) (keyReduced .c0) (around.dot i) around.stale
    (result .c1) around.aux2 (atLevel .c1) covers id idx
  have levels := dotKSKInPlaceFrom_level digits (SetupConstants raw) (around.dot i) around.stale
    (result .c1) around.aux2 source ksk
  rw [atLevel] at levels
  have value := fun component {id idx : Nat} (live : raw.Live level id) (column : idx < raw.N) =>
    dot_reduced generated bound sourceReduced (keyReduced component) live column
  simp only [rotateUnfused, if_true, Option.bind_eq_bind, Option.bind_some]
  generalize dotKSKInPlaceFrom digits (SetupConstants raw) (around.dot i) around.stale (result .c1)
    around.aux2 source ksk = out at products levels ⊢
  obtain ⟨firstLevel, secondLevel, firstUp, secondUp⟩ := levels
  have reduced : ∀ id, raw.Live level id → ∀ idx, idx < raw.N →
      out.2.word raw id idx < raw.prime id := by
    intro id live idx column
    rw [(products live column).2, value .c0 live column]
    have positive : NeZero (raw.prime id) := ⟨(generated.modulus (live.inside bound)).pos.ne'⟩
    exact ZMod.val_lt _
  obtain ⟨sum, added, sumLevel, sumUp, sumWord⟩ := addFrom_word generated bound (atLevel .c0)
    allocated canonical low secondLevel.ge secondUp reduced
  have added' : (result .c0).addFrom (SetupConstants raw) ((SetupConstants raw).N / 2) c0 out.2 =
      some sum := added
  rw [added', Option.bind_some]
  refine ⟨_, rfl, ?_⟩
  intro component id slot live inside
  have column : automorph_slot raw.logN inverse slot < raw.N := automorph_slot_lt (by omega) _ _
  cases component with
  | c0 =>
      have positive : NeZero (raw.prime id) := ⟨(generated.modulus (live.inside bound)).pos.ne'⟩
      have moved := automorph_word generated bound narrow (moves .c0) (around.aux i .c0)
        (around.specialAux i .c0) sumLevel sumUp undoes live inside
      refine ⟨sumUp, moved.trans ?_⟩
      rw [sumWord id live _ column, (products live column).2, value .c0 live column,
        ZMod.natCast_zmod_val]
      rfl
  | c1 =>
      have moved := automorph_word generated bound narrow (moves .c1) (around.aux i .c1)
        (around.specialAux i .c1) firstLevel firstUp undoes live inside
      refine ⟨firstUp, moved.trans ?_⟩
      rw [(products live column).1, value .c1 live column, Digits.rotatedResidue, add_zero]

end Unfused

end Fideslib.KeySwitch
