/-
This file proves the contract of the mod-down over all levels and operands.
-/

import Fideslib.KeySwitch.ModDown

namespace Fideslib.KeySwitch

open Fideslib.Modular
open Constants (SetupConstants)

/-- The polynomials have the same words in the limbs that are in use. -/
structure RNSPoly.Agree (raw : RawParams) (left right : RNSPoly) : Prop where
  level : left.level = right.level
  modUp : left.modUp = right.modUp
  limb : ∀ j, j ≤ left.level → ∀ i, i < raw.N → left.limb j i = right.limb j i

/-- These are the words of a sum in the limbs in use. -/
structure SumOf (raw : RawParams) (slots : Nat) (dest p sum : RNSPoly) : Prop where
  level : sum.level = dest.level
  modUp : sum.modUp = (dest.modUp || p.modUp)
  specialLimbs : sum.specialLimbs =
    if (p.modUp && !dest.modUp) ∧ dest.specialLimbs = 0 then raw.K else dest.specialLimbs
  limb : ∀ j, j ≤ dest.level → ∀ i, i < raw.N → sum.limb j i =
    if dest.modUp = p.modUp then add_ (SetupConstants raw) j (2 * slots) (dest.limb j) (p.limb j) i
    else if dest.modUp then
      add_scale_p_b_ (SetupConstants raw) j (2 * slots) (dest.limb j) (p.limb j) i
    else add_scale_p_a_ (SetupConstants raw) j (2 * slots) (dest.limb j) (p.limb j) i
  special : ∀ k, k < raw.K → ∀ i, i < raw.N → sum.special k i =
    if dest.modUp && p.modUp then
      add_ (SetupConstants raw) (raw.L + k) (2 * slots) (dest.special k) (p.special k) i
    else if p.modUp then p.special k i
    else dest.special k i

section Sums

variable {raw : RawParams} {self p : RNSPoly} {slots : Nat}

/-- The allocation keeps all words. -/
theorem grown_eq (cc : Constants) (needed : Bool) (self : RNSPoly) :
    (if needed then self.generateSpecialLimbs cc else self) =
      { self with
        specialLimbs := if needed ∧ self.specialLimbs = 0 then cc.K else self.specialLimbs } := by
  cases needed with
  | false => rfl
  | true =>
      rw [RNSPoly.generateSpecialLimbs]
      by_cases empty : self.specialLimbs = 0 <;> simp [empty]

theorem add_words (order : self.level ≤ p.level)
    (aligned : p.modUp ∧ ¬self.modUp → 2 * slots = raw.N) :
    ∃ sum, self.add (SetupConstants raw) slots p = some sum ∧ SumOf raw slots self p sum := by
  have total := @threads_eq raw
  refine ⟨_, if_pos ⟨order, aligned⟩, ?_⟩
  rw [grown_eq]
  constructor
  · rfl
  · rfl
  · rfl
  · intro j inside i bound
    dsimp only
    rw [onLimbs_inside _ _ (by omega), RNSPoly.addLimbs, total, launch_inside _ _ bound]
    split_ifs <;> rfl
  · intro k inside i bound
    dsimp only
    rw [onLimbs_inside _ _ (show k < (SetupConstants raw).K from inside), RNSPoly.addSpecial, total]
    dsimp only
    split_ifs
    · exact launch_inside _ _ bound
    · exact launch_inside _ _ bound
    · rfl

end Sums

section Folds

variable {raw : RawParams} (generated : raw.Generated) {slots : Nat} (ntt : Bool) {x y : RNSPoly}

include generated

/-- The lift reads only the special limbs. -/
theorem lifted_congr {left right : RNSPoly}
    (same : ∀ k, k < raw.K → ∀ i, i < raw.N → left.special k i = right.special k i) {i : Nat}
    (bound : i < raw.N) : raw.lifted ntt left i = raw.lifted ntt right i := by
  rw [RawParams.lifted, RawParams.lifted]
  apply ResidueSystem.lift_congr
  intro k member
  have inside := Finset.mem_range.mp member
  cases ntt with
  | false => exact same k inside i bound
  | true => exact generated.INTT_congr (same k inside) bound

theorem NTT_lifted_congr {left right : RNSPoly} (j : Nat)
    (same : ∀ k, k < raw.K → ∀ i, i < raw.N → left.special k i = right.special k i) {i : Nat}
    (bound : i < raw.N) :
    (SetupConstants raw).NTT j (raw.lifted ntt left) i =
      (SetupConstants raw).NTT j (raw.lifted ntt right) i := by
  apply generated.NTT_congr _ bound
  intro position below
  rw [lifted_congr generated ntt same below]

omit generated in
/-- One word of the division depends on one word of each operand. -/
theorem moddown_fusion_congr (algo : ALGO) (j : Nat) {res other A B : Limb} {i : Nat}
    (sameRes : res i = other i) (sameA : A i = B i) :
    moddown_fusion (SetupConstants raw) algo j res A i =
      moddown_fusion (SetupConstants raw) algo j other B i := by
  rw [moddown_fusion, moddown_fusion, sameRes, sameA]

theorem NTT_lifted_lt {j : Nat} (row : j < raw.L) (y : RNSPoly) (i : Nat) :
    (SetupConstants raw).NTT j (raw.lifted ntt y) i < raw.q j := by
  rw [← primes_q row]
  exact Constants.NTT_lt (generated.modulus (show j < raw.L + raw.K by omega)).pos _ i

/-- A polynomial with the special words of an extended operand is divided as that operand is. -/
theorem moddown_special (algo : ALGO) (free : Bool) (auxLimbs : Nat → Limb) {sum : RNSPoly}
    (canonical : y.Canonical raw) (flags : y.modUp) (extended : sum.Extended raw)
    (chain : sum.level < raw.L)
    (reduced : ∀ j, j ≤ sum.level → ∀ i, i < raw.N → sum.limb j i < raw.q j)
    (same : ∀ k, k < raw.K → ∀ i, i < raw.N → sum.special k i = y.special k i) :
    ∃ left, sum.moddown (SetupConstants raw) algo ntt free auxLimbs = some left ∧
      left.level = sum.level ∧ left.modUp = false ∧ ∀ j, j ≤ sum.level → ∀ i, i < raw.N →
        left.limb j i = moddown_fusion (SetupConstants raw) algo j (sum.limb j)
          ((SetupConstants raw).NTT j (raw.lifted ntt y)) i := by
  have sumCanonical : sum.Canonical raw := by
    refine ⟨chain, reduced, ?_, Or.inr extended.2⟩
    intro _ k inside i bound
    rw [same k inside i bound]
    exact canonical.special flags k inside i bound
  obtain ⟨left, lowered, level, flag, limb⟩ :=
    moddown_words generated ntt algo free sumCanonical extended auxLimbs
  refine ⟨left, lowered, level, flag, ?_⟩
  intro j inside i bound
  rw [limb j inside i bound]
  exact moddown_fusion_congr algo j rfl (NTT_lifted_congr generated ntt j same bound)

/-- A regular summand may be folded into an extended operand before the mod-down. -/
theorem moddown_add (algo : ALGO) (free : Bool) (auxLimbs : Nat → Limb)
    (canonical : y.Canonical raw) (extended : y.Extended raw) (regular : x.Canonical raw)
    (flag : x.modUp = false) (order : y.level ≤ x.level) :
    ∃ left right,
      (y.add (SetupConstants raw) slots x).bind
          (fun sum => sum.moddown (SetupConstants raw) algo ntt free auxLimbs) = some left ∧
        (y.moddown (SetupConstants raw) algo ntt free auxLimbs).bind
          (fun settled => settled.add (SetupConstants raw) slots x) = some right ∧
        left.Agree raw right := by
  have chain := canonical.level
  have upper := regular.level
  obtain ⟨sum, summed, words⟩ := @add_words raw y x slots order (by simp [flag])
  have flags : y.modUp = true := extended.1
  have sumLimb : ∀ j, j ≤ y.level → ∀ i, i < raw.N → sum.limb j i =
      add_scale_p_b_ (SetupConstants raw) j (2 * slots) (y.limb j) (x.limb j) i := by
    intro j inside i bound
    rw [words.limb j inside i bound, flags, flag]
    rfl
  have operand : ∀ j, j ≤ y.level → ∀ i, i < raw.N →
      x.limb j (bidx (SetupConstants raw) (2 * slots) i) < raw.q j := fun j inside i bound =>
    regular.limb j (by omega) _ (bidx_lt bound)
  have sumExtended : sum.Extended raw := by
    constructor
    · rw [words.modUp, flags]
      rfl
    · rw [words.specialLimbs, ← extended.2, ite_self]
  obtain ⟨left, lowered, leftLevel, leftFlag, leftLimb⟩ :=
    moddown_special generated ntt algo free auxLimbs canonical flags sumExtended
      (by rw [words.level]; exact chain)
      (by
        intro j inside i bound
        rw [words.level] at inside
        rw [sumLimb j inside i bound]
        exact add_scale_p_b_lt generated (by omega) (canonical.limb j inside i bound)
          (operand j inside i bound))
      (by
        intro k inside i bound
        rw [words.special k inside i bound, flags, flag]
        rfl)
  obtain ⟨settled, divided, settledLevel, settledFlag, settledLimb⟩ :=
    moddown_words generated ntt algo free canonical extended auxLimbs
  obtain ⟨right, added, rightWords⟩ := @add_words raw settled x slots (by omega) (by simp [flag])
  refine ⟨left, right, ?_, ?_, ?_⟩
  · rw [summed]
    exact lowered
  · rw [divided]
    exact added
  · constructor
    · rw [leftLevel, words.level, rightWords.level, settledLevel]
    · rw [leftFlag, rightWords.modUp, settledFlag, flag]
      rfl
    · intro j inside i bound
      rw [leftLevel, words.level] at inside
      have row : j < raw.L := by omega
      rw [leftLimb j (by rw [words.level]; exact inside) i bound,
        moddown_fusion_congr algo j (sumLimb j inside i bound) rfl,
        moddown_fusion_scale_b generated row algo (NTT_lifted_lt generated ntt row y i)
          (canonical.limb j inside i bound) (operand j inside i bound),
        rightWords.limb j (by omega) i bound, settledFlag, flag, if_pos rfl, add_, add_,
        settledLimb j inside i bound]

/-- An extended summand may be divided before it is added to a regular one. -/
theorem add_moddown (algo : ALGO) (free : Bool) (auxLimbs : Nat → Limb)
    (canonical : y.Canonical raw) (extended : y.Extended raw) (regular : x.Canonical raw)
    (flag : x.modUp = false) (order : x.level ≤ y.level) (aligned : 2 * slots = raw.N) :
    ∃ left right,
      (x.add (SetupConstants raw) slots y).bind
          (fun sum => sum.moddown (SetupConstants raw) algo ntt free auxLimbs) = some left ∧
        (y.moddown (SetupConstants raw) algo ntt free auxLimbs).bind
          (fun settled => x.add (SetupConstants raw) slots settled) = some right ∧
        left.Agree raw right := by
  have chain := canonical.level
  have lower := regular.level
  have flags : y.modUp = true := extended.1
  obtain ⟨sum, summed, words⟩ := @add_words raw x y slots order fun _ => aligned
  have place : ∀ i, bidx (SetupConstants raw) (2 * slots) i = i := by
    intro i
    rw [aligned]
    exact bidx_whole i
  have sumLimb : ∀ j, j ≤ x.level → ∀ i, i < raw.N → sum.limb j i =
      add_scale_p_a_ (SetupConstants raw) j (2 * slots) (x.limb j) (y.limb j) i := by
    intro j inside i bound
    rw [words.limb j inside i bound, flags, flag]
    rfl
  have sumExtended : sum.Extended raw := by
    constructor
    · rw [words.modUp, flags, flag]
      rfl
    · rw [words.specialLimbs, flags, flag]
      rcases regular.allocated with absent | present
      · rw [if_pos ⟨rfl, absent⟩]
      · rw [present, ite_self]
  obtain ⟨left, lowered, leftLevel, leftFlag, leftLimb⟩ :=
    moddown_special generated ntt algo free auxLimbs canonical flags sumExtended
      (by rw [words.level]; exact lower)
      (by
        intro j inside i bound
        rw [words.level] at inside
        rw [sumLimb j inside i bound]
        exact add_scale_p_a_lt generated (by omega) (regular.limb j inside i bound)
          (canonical.limb j (by omega) _ (bidx_lt bound)))
      (by
        intro k inside i bound
        rw [words.special k inside i bound, flags, flag]
        rfl)
  obtain ⟨settled, divided, settledLevel, settledFlag, settledLimb⟩ :=
    moddown_words generated ntt algo free canonical extended auxLimbs
  obtain ⟨right, added, rightWords⟩ := @add_words raw x settled slots (by omega)
    (by simp [settledFlag])
  refine ⟨left, right, ?_, ?_, ?_⟩
  · rw [summed]
    exact lowered
  · rw [divided]
    exact added
  · constructor
    · rw [leftLevel, words.level, rightWords.level]
    · rw [leftFlag, rightWords.modUp, settledFlag, flag]
      rfl
    · intro j inside i bound
      rw [leftLevel, words.level] at inside
      have row : j < raw.L := by omega
      rw [leftLimb j (by rw [words.level]; exact inside) i bound,
        moddown_fusion_congr algo j (sumLimb j inside i bound) rfl,
        moddown_fusion_scale_a generated row algo (NTT_lifted_lt generated ntt row y i) (place i)
          (canonical.limb j (by omega) i bound) (regular.limb j inside i bound),
        rightWords.limb j inside i bound, settledFlag, flag, if_pos rfl, add_, add_, place,
        settledLimb j (by omega) i bound]

end Folds

section Division

variable {raw : RawParams} (generated : raw.Generated) (ntt : Bool) {y : RNSPoly}

include generated

/-- The lift has the special residues and exceeds the product once for each prime at most. -/
theorem lifted_residue (canonical : y.Canonical raw) (extended : y.Extended raw) {k i : Nat}
    (inside : k < raw.K) (bound : i < raw.N) :
    raw.lifted ntt y i % raw.p k = raw.specialCoefficients ntt y k i ∧
      raw.lifted ntt y i < raw.K * raw.P := by
  have member := Finset.mem_range.mpr inside
  have reduced : raw.specialCoefficients ntt y k i < raw.p k :=
    specialCoefficients_lt generated canonical extended inside bound
  have same : raw.lifted ntt y i ≡ raw.specialCoefficients ntt y k i [MOD raw.p k] :=
    ResidueSystem.lift_modEq (fun k => generated.positive_p) (fun k => generated.invert_p) member
  have small : raw.lifted ntt y i < (Finset.range raw.K).card * raw.P :=
    ResidueSystem.lift_lt (fun k => generated.positive_p) ⟨k, member⟩
  rw [Finset.card_range] at small
  exact ⟨by rw [same, Nat.mod_eq_of_lt reduced], small⟩

/-- Each word is the residue of a division by the product of the special primes. -/
theorem moddown_residue (algo : ALGO) {j : Nat} (row : j < raw.L) (inside : j ≤ y.level)
    (canonical : y.Canonical raw) {i : Nat} (bound : i < raw.N) :
    moddown_fusion (SetupConstants raw) algo j (y.limb j)
        ((SetupConstants raw).NTT j (raw.lifted ntt y)) i < raw.q j ∧
      (moddown_fusion (SetupConstants raw) algo j (y.limb j)
        ((SetupConstants raw).NTT j (raw.lifted ntt y)) i : ZMod (raw.q j)) =
        (y.limb j i - (SetupConstants raw).NTT j (raw.lifted ntt y) i) *
          (raw.P : ZMod (raw.q j))⁻¹ := by
  have subtracted := NTT_lifted_lt generated ntt row y i
  have limb := canonical.limb j inside i bound
  constructor
  · exact moddown_fusion_lt generated row algo limb subtracted
  · rw [moddown_fusion_cast generated row algo limb subtracted, P_inv_cast generated row]

/-- The towers of the polynomial come from these integer coefficients. -/
structure Towers (raw : RawParams) (ntt : Bool) (y : RNSPoly) (value : Nat → Int) : Prop where
  limb : ∀ j, j ≤ y.level → ∀ i, i < raw.N →
    y.limb j i = (SetupConstants raw).NTT j (fun i => (value i % raw.q j).toNat) i
  special : ∀ k, k < raw.K → ∀ i, i < raw.N →
    raw.specialCoefficients ntt y k i = (value i % raw.p k).toNat

omit generated in
theorem toNat_cast {q : Nat} (positive : 0 < q) (z : Int) : ((z % q).toNat : ZMod q) = z := by
  have nonneg : 0 ≤ z % q := Int.emod_nonneg _ (by omega)
  have whole : (((z % q).toNat : Int) : ZMod q) = ((z % q : Int) : ZMod q) := by
    rw [Int.toNat_of_nonneg nonneg]
  rwa [Int.cast_natCast, ZMod.intCast_mod] at whole

theorem lifted_dvd {value : Nat → Int} (towers : Towers raw ntt y value) {i : Nat}
    (bound : i < raw.N) : (raw.P : Int) ∣ value i - raw.lifted ntt y i := by
  apply ResidueSystem.product_dvd_sub_lift (fun k => generated.positive_p) generated.coprime_p
    (fun k => generated.invert_p)
  intro k member
  have positive := generated.positive_p member
  rw [towers.special k (Finset.mem_range.mp member) i bound,
    Int.toNat_of_nonneg (Int.emod_nonneg _ (by omega))]
  exact (Int.mod_modEq _ _).symm

/-- The result holds the residues of the exact integer quotient. -/
theorem moddown_exact (algo : ALGO) {value : Nat → Int} (towers : Towers raw ntt y value) {j : Nat}
    (row : j < raw.L) (inside : j ≤ y.level) (canonical : y.Canonical raw) {i : Nat}
    (bound : i < raw.N) :
    moddown_fusion (SetupConstants raw) algo j (y.limb j)
        ((SetupConstants raw).NTT j (raw.lifted ntt y)) i =
      (SetupConstants raw).NTT j
        (fun i => ((value i - raw.lifted ntt y i) / raw.P % raw.q j).toNat) i := by
  have positive := (modulus_q generated row).pos
  have prime : 0 < (SetupConstants raw).primes j := by rwa [primes_q row]
  have transform : ∀ x : Limb, ((SetupConstants raw).NTT j x i : ZMod (raw.q j)) =
      NegacyclicTransform.forward (raw.root j : ZMod (raw.q j)) (raw.logN - 1)
        (residues (raw.q j) x) i := by
    intro x
    have whole := congrFun (Constants.residues_NTT prime x) i
    rw [primes_q row] at whole
    exact whole
  obtain ⟨small, cast⟩ := moddown_residue generated ntt algo row inside canonical bound
  have reduced := Constants.NTT_lt prime
    (fun i => ((value i - raw.lifted ntt y i) / raw.P % raw.q j).toNat) i
  rw [primes_q row] at reduced
  apply word_ext small reduced
  have unit : (raw.P : ZMod (raw.q j))⁻¹ * raw.P = 1 := by
    rw [← P_inv_cast generated row]
    exact generated.inverse_cast row
  rw [cast, towers.limb j inside i bound, transform, transform, transform, mul_comm,
    ← NegacyclicTransform.forward_linear]
  apply NegacyclicTransform.forward_congr _ (lt_of_lt_of_eq bound generated.dimension.symm)
  intro position below
  obtain ⟨quotient, exact_quotient⟩ :=
    lifted_dvd generated ntt towers (lt_of_lt_of_eq below generated.dimension)
  have nonzero : (raw.P : Int) ≠ 0 := by
    have product : 0 < raw.P := Finset.prod_pos fun k => generated.positive_p
    omega
  have residue := congrArg (Int.cast : Int → ZMod (raw.q j)) exact_quotient
  push_cast at residue
  rw [residues, residues, residues, toNat_cast positive, toNat_cast positive, residue,
    exact_quotient, Int.mul_ediv_cancel_left _ nonzero]
  linear_combination (quotient : ZMod (raw.q j)) * unit

end Division

/-- The mod-down divides exactly, so it commutes with the sum of a scaled operand. -/
theorem moddown_folds {raw : RawParams} (generated : raw.Generated) (algo : ALGO) (ntt free : Bool)
    (auxLimbs : Nat → Limb) {y : RNSPoly} (canonical : y.Canonical raw)
    (extended : y.Extended raw) :
    ∃ out, y.moddown (SetupConstants raw) algo ntt free auxLimbs = some out ∧
      out.level = y.level ∧ out.modUp = false ∧
      (∀ j, j ≤ y.level → ∀ i, i < raw.N → out.limb j i < raw.q j ∧
        (out.limb j i : ZMod (raw.q j)) =
          (y.limb j i - (SetupConstants raw).NTT j (raw.lifted ntt y) i) *
            (raw.P : ZMod (raw.q j))⁻¹) ∧
      (∀ k, k < raw.K → ∀ i, i < raw.N →
        raw.lifted ntt y i % raw.p k = raw.specialCoefficients ntt y k i ∧
          raw.lifted ntt y i < raw.K * raw.P) ∧
      (∀ value, Towers raw ntt y value → ∀ i, i < raw.N →
        (raw.P : Int) ∣ value i - raw.lifted ntt y i ∧
          ∀ j, j ≤ y.level → out.limb j i = (SetupConstants raw).NTT j
            (fun i => ((value i - raw.lifted ntt y i) / raw.P % raw.q j).toNat) i) ∧
      ∀ x : RNSPoly, x.Canonical raw → x.modUp = false → ∀ slots,
        (y.level ≤ x.level → ∃ left right,
          (y.add (SetupConstants raw) slots x).bind
              (fun sum => sum.moddown (SetupConstants raw) algo ntt free auxLimbs) = some left ∧
            out.add (SetupConstants raw) slots x = some right ∧ left.Agree raw right) ∧
        (x.level ≤ y.level → 2 * slots = raw.N → ∃ left right,
          (x.add (SetupConstants raw) slots y).bind
              (fun sum => sum.moddown (SetupConstants raw) algo ntt free auxLimbs) = some left ∧
            x.add (SetupConstants raw) slots out = some right ∧ left.Agree raw right) := by
  have chain := canonical.level
  obtain ⟨out, lowered, level, flag, words⟩ :=
    moddown_words generated ntt algo free canonical extended auxLimbs
  refine ⟨out, lowered, level, flag, ?_, ?_, ?_, ?_⟩
  · intro j inside i bound
    rw [words j inside i bound]
    exact moddown_residue generated ntt algo (by omega) inside canonical bound
  · intro k inside i bound
    exact lifted_residue generated ntt canonical extended inside bound
  · intro value towers i bound
    refine ⟨lifted_dvd generated ntt towers bound, ?_⟩
    intro j inside
    rw [words j inside i bound]
    exact moddown_exact generated ntt algo towers (by omega) inside canonical bound
  · intro x regular regularFlag slots
    constructor
    · intro order
      obtain ⟨left, right, folded, settled, agree⟩ := @moddown_add raw generated slots ntt x y algo
        free auxLimbs canonical extended regular regularFlag order
      rw [lowered] at settled
      exact ⟨left, right, folded, settled, agree⟩
    · intro order aligned
      obtain ⟨left, right, folded, settled, agree⟩ := @add_moddown raw generated slots ntt x y algo
        free auxLimbs canonical extended regular regularFlag order aligned
      rw [lowered] at settled
      exact ⟨left, right, folded, settled, agree⟩

/-- This chain has two primes and one special prime for a ring of dimension 128. -/
def smallParams : RawParams where
  logN := 7
  moduli := [257, 3329]
  SPECIALmoduli := [769]
  root_of_unity := [3, 17]
  SPECIALroot_of_unity := [7]
  PInvModq := [128, 1000]
  PHatInvModp := [1]
  PHatModq := [[1, 1]]

theorem smallParams_generated : smallParams.Generated where
  ring := by decide
  tables := by decide
  prime := by
    intro id bound
    change id < 3 at bound
    interval_cases id
    · change Nat.Prime 257
      norm_num
    · change Nat.Prime 3329
      norm_num
    · change Nat.Prime 769
      norm_num
  small := by
    intro id bound
    change id < 3 at bound
    interval_cases id <;> decide
  odd := by
    intro id bound
    change id < 3 at bound
    interval_cases id <;> decide
  distinct := by
    intro id other first second
    change id < 3 at first
    change other < 3 at second
    interval_cases id <;> interval_cases other <;> decide
  root := by
    intro id bound
    change id < 3 at bound
    interval_cases id <;> decide
  inverse_small := by
    intro i bound
    change i < 2 at bound
    interval_cases i <;> decide
  inverse := by
    intro i bound
    change i < 2 at bound
    interval_cases i <;> decide
  hat_inverse_small := by
    intro k bound
    change k < 1 at bound
    interval_cases k
    decide
  hat_inverse := by
    intro k bound
    change k < 1 at bound
    interval_cases k
    decide
  hat := by
    intro k i first second
    change k < 1 at first
    change i < 2 at second
    interval_cases k
    interval_cases i <;> decide

def smallPoly (level : Nat) (modUp : Bool) : RNSPoly where
  level
  limb j i := 2 * i + j
  special _ i := 3 * i
  specialLimbs := 1
  modUp

theorem smallPoly_canonical (modUp : Bool) : (smallPoly 0 modUp).Canonical smallParams where
  level := Nat.zero_lt_succ 1
  limb := by
    intro j inside i bound
    change j ≤ 0 at inside
    change i < 128 at bound
    interval_cases j
    change 2 * i + 0 < 257
    omega
  special := by
    intro _ k inside i bound
    change k < 1 at inside
    change i < 128 at bound
    interval_cases k
    change 3 * i < 769
    omega
  allocated := Or.inr rfl

theorem moddown_folds_small :
    ∃ out, (smallPoly 0 true).moddown (SetupConstants smallParams) .shoup true true
        (fun _ _ => 0) = some out ∧ ∃ left right,
      ((smallPoly 0 true).add (SetupConstants smallParams) 64 (smallPoly 0 false)).bind
          (fun sum => sum.moddown (SetupConstants smallParams) .shoup true true (fun _ _ => 0)) =
            some left ∧
        out.add (SetupConstants smallParams) 64 (smallPoly 0 false) = some right ∧
        left.Agree smallParams right := by
  have law := moddown_folds smallParams_generated .shoup true true (fun _ _ => 0)
    (smallPoly_canonical true) ⟨rfl, rfl⟩
  obtain ⟨out, lowered, -, -, -, -, -, folds⟩ := law
  obtain ⟨left, right, folded, settled, agree⟩ :=
    (folds (smallPoly 0 false) (smallPoly_canonical false) rfl 64).1 (Nat.le_refl _)
  exact ⟨out, lowered, left, right, folded, settled, agree⟩

end Fideslib.KeySwitch
