/-
This file proves that the mod-up extends one integer for all its targets.
-/

import Fideslib.KeySwitch.HostTables
import Fideslib.KeySwitch.ModDownContract
import Fideslib.KeySwitch.ModUp

namespace Fideslib.KeySwitch

open Fideslib.Modular
open Constants (SetupConstants)
open Registry (DigitRow)
open WordReduction (wrappingSum wrappingSum_eq wrappingSum_lt)

namespace Digits

variable {raw : RawParams} (digits : Digits raw)

/-- The targets receive the residues of one integer above the input. -/
structure Lifted (level d : Nat) (a result : Nat → Limb) (idx x alpha : Nat) : Prop where
  small : x < digits.Q_d (digits.size (level + 1) d) d
  residues : ∀ i, i < digits.size (level + 1) d → x % digits.PartQ d i = a i idx
  alpha_lt : alpha < digits.size (level + 1) d
  target : ∀ id ∈ digits.targets level d, result (digits.pos_in_digit d id) idx =
    (x + alpha * digits.Q_d (digits.size (level + 1) d) d) % raw.prime id

/-- Each prime that is not of the digit has its own position. -/
theorem pos_in_digit_target {level d id : Nat} (inside : level < raw.L)
    (target : id ∈ digits.targets level d) :
    digits.pos_in_digit d id < digits.num_primeid_digit_to d level ∧
      digits.primeid_digit_to d (digits.pos_in_digit d id) = id := by
  have absent : id ∉ (digits.DECOMPmeta d).map LimbRecord.id := by
    rw [digits.DECOMPmeta_id, List.mem_filter]
    rintro ⟨mem, same⟩
    have below := List.mem_range.mp mem
    rcases digits.mem_targets.mp target with ⟨low, high⟩ | ⟨live, other⟩
    · omega
    · exact other (of_decide_eq_true same)
  obtain ⟨later, split, beyond⟩ := digits.DIGITmeta_targets inside d
  have place : digits.pos_in_digit d id = (digits.targets level d).idxOf id := by
    rw [pos_in_digit, if_neg absent, split, List.idxOf_append_of_mem target]
  have bound := List.idxOf_lt_length_of_mem target
  rw [place, digits.num_primeid_digit_to_eq inside]
  refine ⟨bound, ?_⟩
  rw [digits.primeid_digit_to_eq inside bound, List.getD_eq_getElem?_getD,
    List.getElem?_idxOf target, Option.getD_some]

variable (generated : raw.Generated)

include generated

theorem PartQ_modulus {d i : Nat} (inside : i < (digits.DECOMPmeta d).length) :
    Modulus (digits.PartQ d i) := by
  have below := digits.PartQ_lt inside
  have modulus := generated.modulus (show digits.start d + i < raw.L + raw.K by omega)
  rwa [raw.prime_q below] at modulus

theorem size_bound (level d : Nat) : digits.size (level + 1) d ≤ 64 := by
  have whole := digits.size_le level d
  have room := generated.tables
  have last := digits.start_le (d + 1)
  rw [digits.start_succ] at last
  omega

end Digits

/-- This integer has the residues of the live limbs. -/
def ModUpTables.conv {raw : RawParams} (tables : ModUpTables) (digits : Digits raw)
    (level d idx : Nat) (a : Nat → Limb) : Nat :=
  ResidueSystem.lift (Finset.range (digits.size (level + 1) d)) (digits.PartQ d)
    (tables.inverse d (digits.size (level + 1) d - 1)) fun i => a i idx

section Lift

variable {raw : RawParams} (generated : raw.Generated) {digits : Digits raw} {tables : ModUpTables}
  {level d : Nat}

theorem PartQ_pos (generated : raw.Generated) (digits : Digits raw) {level d : Nat} :
    ∀ i ∈ Finset.range (digits.size (level + 1) d), 0 < digits.PartQ d i := by
  intro i member
  have whole := digits.size_le level d
  exact (digits.PartQ_modulus generated ((Finset.mem_range.mp member).trans_le whole)).pos

include generated

/-- The lift of a live digit has its residues. -/
theorem conv_mod (converted : tables.Generated digits) (live : d < digits.num_d (level + 1))
    {a : Nat → Limb} {idx i : Nat} (limb : i < digits.size (level + 1) d)
    (reduced : a i idx < digits.PartQ d i) :
    tables.conv digits level d idx a % digits.PartQ d i = a i idx := by
  have whole := digits.size_le level d
  have occupied := digits.size_pos live
  have number := live.trans_le (digits.num_d_le _)
  have invert : ∀ j ∈ Finset.range (digits.size (level + 1) d),
      tables.inverse d (digits.size (level + 1) d - 1) j *
        ResidueSystem.cofactor (Finset.range (digits.size (level + 1) d)) (digits.PartQ d) j ≡ 1
        [MOD digits.PartQ d j] := by
    intro j member
    have bound := Finset.mem_range.mp member
    have large := (digits.PartQ_modulus generated (bound.trans_le whole)).large
    have one := converted.inverse d (digits.size (level + 1) d - 1) j number (by omega) (by omega)
    rw [Nat.sub_add_cancel occupied] at one
    rw [Nat.ModEq, Nat.mod_eq_of_lt (show 1 < digits.PartQ d j by omega)]
    exact one
  have residue : tables.conv digits level d idx a ≡ a i idx [MOD digits.PartQ d i] :=
    ResidueSystem.lift_modEq (PartQ_pos generated digits) invert (Finset.mem_range.mpr limb)
  rwa [Nat.ModEq, Nat.mod_eq_of_lt reduced] at residue

/-- The lift exceeds the product less than once for each live prime. -/
theorem conv_lt (live : d < digits.num_d (level + 1)) (a : Nat → Limb) (idx : Nat) :
    tables.conv digits level d idx a <
      digits.size (level + 1) d * digits.Q_d (digits.size (level + 1) d) d := by
  have nonempty : (Finset.range (digits.size (level + 1) d)).Nonempty :=
    Finset.nonempty_range_iff.mpr (Nat.ne_of_gt (digits.size_pos live))
  have below : tables.conv digits level d idx a <
      (Finset.range (digits.size (level + 1) d)).card * digits.Q_d (digits.size (level + 1) d) d :=
    ResidueSystem.lift_lt (PartQ_pos generated digits) nonempty
  rwa [Finset.card_range] at below

end Lift

section Conversion

variable {raw : RawParams} (generated : raw.Generated) {digits : Digits raw} {tables : ModUpTables}
  (converted : tables.Generated digits) (algo : ALGO) {level d : Nat} (inside : level < raw.L)
  (live : d < digits.num_d (level + 1)) {a : Nat → Limb} {idx : Nat}
  (canonical : ∀ i, i < digits.size (level + 1) d → a i idx < digits.PartQ d i)

include generated converted inside live canonical

omit inside in
theorem DecompBuffer_eq {i : Nat} (limb : i < digits.size (level + 1) d) :
    DecompBuffer (SetupConstants raw) digits tables algo d (digits.size (level + 1) d) a idx i =
      a i idx * tables.inverse d (digits.size (level + 1) d - 1) i % digits.PartQ d i := by
  have number := live.trans_le (digits.num_d_le _)
  have whole := digits.size_le level d
  have modulus := digits.PartQ_modulus generated (limb.trans_le whole)
  have scale := converted.pre_scale_eq generated number
    (show digits.size (level + 1) d - 1 < (digits.DECOMPmeta d).length by omega)
    (show i ≤ digits.size (level + 1) d - 1 by omega)
  have small := converted.inverse_small d (digits.size (level + 1) d - 1) i number (by omega) (by omega)
  have prime : (SetupConstants raw).primes (digits.start d + i) = digits.PartQ d i :=
    raw.prime_q (digits.PartQ_lt (limb.trans_le whole))
  simp only [DecompBuffer, digits.primeid_digit_from_eq (limb.trans_le whole), scale, prime]
  exact modmult_eq modulus algo (canonical i limb) small

theorem DecompTerm_eq {i id : Nat} (limb : i < digits.size (level + 1) d)
    (target : id ∈ digits.targets level d) :
    DecompTerm (SetupConstants raw) digits tables algo (level + 1) d a id idx i =
      a i idx * tables.inverse d (digits.size (level + 1) d - 1) i % digits.PartQ d i *
        (digits.PartQlHat (digits.size (level + 1) d) d i % raw.prime id) := by
  have whole := digits.size_le level d
  simp only [DecompTerm, Nat.add_sub_cancel, digits.num_primeid_digit_from_eq,
    digits.primeid_digit_from_eq (limb.trans_le whole),
    converted.matrix_eq generated inside live limb target]
  rw [DecompBuffer_eq generated converted algo live canonical limb]

/-- The products of two residues of 60 bits share the accumulator. -/
theorem DecompTerm_le {i id : Nat} (limb : i < digits.size (level + 1) d)
    (target : id ∈ digits.targets level d) :
    DecompTerm (SetupConstants raw) digits tables algo (level + 1) d a id idx i ≤ 2 ^ 60 * 2 ^ 60 := by
  have whole := digits.size_le level d
  have source := digits.PartQ_modulus generated (limb.trans_le whole)
  have modulus := generated.modulus (digits.target_lt inside target)
  have first := Nat.mod_lt (a i idx * tables.inverse d (digits.size (level + 1) d - 1) i) source.pos
  have second := Nat.mod_lt (digits.PartQlHat (digits.size (level + 1) d) d i) modulus.pos
  have left := source.small
  have right := modulus.small
  rw [DecompTerm_eq generated converted algo inside live canonical limb target]
  exact Nat.mul_le_mul (by omega) (by omega)

/-- The accumulator holds the sum without a wraparound. -/
theorem accumulator_lt {id : Nat} (target : id ∈ digits.targets level d) :
    ∑ i ∈ Finset.range (digits.size (level + 1) d),
      DecompTerm (SetupConstants raw) digits tables algo (level + 1) d a id idx i < 2 ^ 128 := by
  have count := digits.size_bound generated level d
  have each := Finset.sum_le_card_nsmul (Finset.range (digits.size (level + 1) d))
    (DecompTerm (SetupConstants raw) digits tables algo (level + 1) d a id idx) (2 ^ 60 * 2 ^ 60)
    fun i member => DecompTerm_le generated converted algo inside live canonical
      (Finset.mem_range.mp member) target
  rw [Finset.card_range, smul_eq_mul] at each
  apply each.trans_lt
  omega

theorem DecompAndModUpConv_eq (b : Nat → Limb) (thread : idx < raw.N) {id : Nat}
    (target : id ∈ digits.targets level d) :
    DecompAndModUpConv (SetupConstants raw) digits tables algo a (level + 1) b d
        (digits.pos_in_digit d id) idx =
      tables.conv digits level d idx a % raw.prime id := by
  obtain ⟨place, back⟩ := digits.pos_in_digit_target inside target
  have modulus := generated.modulus (digits.target_lt inside target)
  have count := digits.size_bound generated level d
  have sum := wrappingSum_eq
    (fun i limb => DecompTerm_le generated converted algo inside live canonical limb target)
    (show digits.size (level + 1) d * (2 ^ 60 * 2 ^ 60) < 2 ^ 128 by omega)
  have wide := wrappingSum_lt (Nat.two_pow_pos 128)
    (DecompTerm (SetupConstants raw) digits tables algo (level + 1) d a id idx)
    (digits.size (level + 1) d)
  have regular : id < level + 1 ∨ (SetupConstants raw).L ≤ id := by
    rcases digits.mem_targets.mp target with ⟨low, high⟩ | ⟨below, other⟩
    · exact Or.inr low
    · exact Or.inl (Nat.lt_succ_of_le below)
  simp only [DecompAndModUpConv, Nat.add_sub_cancel, back, if_pos (And.intro place regular)]
  rw [whole_blocks generated, launch_inside _ _ thread, digits.num_primeid_digit_from_eq]
  change modreduce _ (raw.prime id) = _
  rw [modreduce_eq modulus wide, sum, ModUpTables.conv, ResidueSystem.lift, Finset.sum_nat_mod]
  conv_rhs => rw [Finset.sum_nat_mod]
  congr 1
  apply Finset.sum_congr rfl
  intro i member
  rw [DecompTerm_eq generated converted algo inside live canonical (Finset.mem_range.mp member) target,
    Nat.mul_mod_mod]
  rfl

end Conversion

/-- The mod-up of a digit gives all live targets the residues of one integer, and it reads the tables
of the digit as the host fills them. -/
theorem decompAndModUpConv_lifts {raw : RawParams} (generated : raw.Generated)
    {digits : Digits raw} {tables : ModUpTables} (converted : tables.Generated digits) (algo : ALGO)
    {level d : Nat} (inside : level < raw.L) (live : d < digits.num_d (level + 1))
    {a : Nat → Limb} (canonical : ∀ i, i < digits.size (level + 1) d → ∀ idx, idx < raw.N →
      a i idx < digits.PartQ d i) (b : Nat → Limb) :
    (∀ idx, idx < raw.N →
      (∃ x alpha, digits.Lifted level d a
        (DecompAndModUpConv (SetupConstants raw) digits tables algo a (level + 1) b d) idx x alpha) ∧
      ∀ id ∈ digits.targets level d, ∑ i ∈ Finset.range (digits.size (level + 1) d),
        DecompTerm (SetupConstants raw) digits tables algo (level + 1) d a id idx i < 2 ^ 128) ∧
    (∀ j_, digits.num_primeid_digit_to d level ≤ j_ →
      DecompAndModUpConv (SetupConstants raw) digits tables algo a (level + 1) b d j_ = b j_) ∧
    ∀ row : DigitRow, digits.Filled d level (digits.filledRow d row) := by
  refine ⟨?_, ?_, fun row => digits.filledRow_agrees d row inside⟩
  · intro idx thread
    have reduced : ∀ i, i < digits.size (level + 1) d → a i idx < digits.PartQ d i :=
      fun i limb => canonical i limb idx thread
    have total : 0 < digits.Q_d (digits.size (level + 1) d) d :=
      Finset.prod_pos (PartQ_pos generated digits)
    have lifted : digits.Lifted level d a
        (DecompAndModUpConv (SetupConstants raw) digits tables algo a (level + 1) b d) idx
        (tables.conv digits level d idx a % digits.Q_d (digits.size (level + 1) d) d)
        (tables.conv digits level d idx a / digits.Q_d (digits.size (level + 1) d) d) :=
      { small := Nat.mod_lt _ total
        residues := by
          intro i limb
          have divides : digits.PartQ d i ∣ digits.Q_d (digits.size (level + 1) d) d :=
            Finset.dvd_prod_of_mem _ (Finset.mem_range.mpr limb)
          rw [Nat.mod_mod_of_dvd _ divides]
          exact conv_mod generated converted live limb (reduced i limb)
        alpha_lt := Nat.div_lt_of_lt_mul (by
          rw [Nat.mul_comm]
          exact conv_lt generated live a idx)
        target := by
          intro id target
          rw [DecompAndModUpConv_eq generated converted algo inside live reduced b thread target,
            Nat.mod_add_div'] }
    refine ⟨⟨_, _, lifted⟩, ?_⟩
    intro id target
    exact accumulator_lt generated converted algo inside live reduced target
  · intro j_ beyond
    simp only [DecompAndModUpConv, Nat.add_sub_cancel]
    rw [if_neg (by omega)]

/-- This is the partition of the small chain into one digit. -/
def smallDigits : Digits smallParams where
  dnum := 1
  PARTITIONmoduli := [[257, 3329]]
  meta_ := [⟨0, some 0⟩, ⟨1, some 0⟩]
  accepted := by decide
  tables := by decide
  occupied := by
    intro d inside
    interval_cases d
    exact ⟨⟨0, some 0⟩, List.mem_cons_self, rfl⟩

/-- The digit is partial at the lowest level. -/
def smallTables : ModUpTables where
  PartQlHatInvModq := [[[1], [107, 1943]]]
  PartQlHatModp := [[[[1]]], [[[253], [257]]]]

theorem smallTables_generated : smallTables.Generated smallDigits where
  scale_shape := by decide
  inverse_small := by
    intro k i j number limb order
    change k < 1 at number
    interval_cases k
    change i < 2 at limb
    interval_cases i <;> interval_cases j <;> decide
  inverse := by
    intro k i j number limb order
    change k < 1 at number
    interval_cases k
    change i < 2 at limb
    interval_cases i <;> interval_cases j <;> decide
  hat := by decide

theorem decompAndModUpConv_lifts_small :
    ∃ x alpha, smallDigits.Lifted 0 0 (fun _ _ => 5)
      (DecompAndModUpConv (SetupConstants smallParams) smallDigits smallTables .shoup (fun _ _ => 5) 1
        (fun _ _ => 0) 0) 3 x alpha := by
  have law := decompAndModUpConv_lifts smallParams_generated smallTables_generated .shoup
    (show 0 < smallParams.L by decide) (show 0 < smallDigits.num_d 1 by decide)
    (show ∀ i, i < smallDigits.size 1 0 → ∀ idx, idx < smallParams.N →
      (fun _ _ => 5 : Nat → Limb) i idx < smallDigits.PartQ 0 i by decide) fun _ _ => 0
  exact (law.1 3 (by decide)).1

end Fideslib.KeySwitch
