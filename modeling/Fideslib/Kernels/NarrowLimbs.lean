/-
This file compares the branches of the kernels for limbs with 32-bit and with 64-bit words.
-/

import Fideslib.Kernels.Compression
import Fideslib.KeySwitch.Rescale
import Fideslib.Modular.NarrowWords

namespace Fideslib.NarrowLimbs

open KeySwitch (Constants RawParams)
open Kernels (logstride)
open KeySwitch.Constants (SetupConstants)
open Fideslib.Modular

/-- The words of a limb from its base address; a kernel can also read behind the limb. -/
abbrev Words := Nat → Nat

/-- A narrow limb that is read as one of 64-bit words gives two of its words. -/
def wide (limb : Words) (idx : Nat) : Nat := limb (2 * idx) + 2 ^ 32 * limb (2 * idx + 1)

section Kernels

variable (cc : Constants) (isU64 : Bool) (primeid : Nat)

def square_ (l1 : Words) (idx : Nat) : Nat :=
  let p := cc.primes primeid
  if isU64 then
    let input := l1 idx
    modmult .barrett input input p 0
  else
    let input := wide l1 idx % 2 ^ 32
    modmult_32 .barrett input input p 0

/-- A word of one operand is scaled by the special modulus and added to a word of the other one. -/
def addScaled (scaled : Words) (place added : Nat) : Nat :=
  let p := cc.primes primeid
  if isU64 then
    let tmp := scaled place
    let tmp := modmult .shoup tmp (cc.P primeid) p (cc.P_shoup primeid)
    modadd added tmp p
  else
    let tmp := wide scaled place % 2 ^ 32
    let tmp := modmult_32 .shoup tmp (cc.P primeid % 2 ^ 32) p (cc.P_shoup primeid)
    modadd_32 added tmp p

def add_scale_p_b_ (elem_b : Nat) (a b : Words) (idx : Nat) : Nat :=
  let bidx := idx >>> logstride cc.N elem_b
  addScaled cc isU64 primeid b bidx (a idx)

def add_scale_p_a_ (elem_b : Nat) (a b : Words) (idx : Nat) : Nat :=
  let bidx := idx >>> logstride cc.N elem_b
  addScaled cc isU64 primeid a idx (b bidx)

end Kernels

/-- The kernels whose code has a branch for limbs of 32-bit words. -/
inductive Kernel
  /-- A product with a prepared constant of the tables. -/
  | modmult_shoup
  /-- The reduction of a word by the prepared one of the tables. -/
  | reduce_shoup
  /-- The reduction of a wide sum, which is cut to the words of the limb. -/
  | modreduce
  /-- The reduction of a double word that the narrow words have of their own. -/
  | modreduce_32
  | add_scale_p_a_
  | add_scale_p_b_
  | square_
  /-- The switch from the residues of another limb. -/
  | SwitchModulus (om_pid : Nat)
deriving DecidableEq

/-- A limb of this ring has residues of its prime, and arbitrary words follow it. -/
structure Residues (cc : Constants) (primeid : Nat) (limb : Words) : Prop where
  residue : ∀ idx, idx < cc.N → limb idx < cc.primes primeid
  word : ∀ idx, limb idx < 2 ^ 32

/-- Both branches of a kernel give the same residues on the same values. -/
def Kernel.Agrees (cc : Constants) (primeid : Nat) : Kernel → Prop
  | modmult_shoup => ∀ a b, a < cc.primes primeid → b < cc.primes primeid →
      modmult_32 .shoup a b (cc.primes primeid) (shoup_precomp b (cc.primes primeid)) =
        modmult .shoup a b (cc.primes primeid) (shoup_precomp b (cc.primes primeid))
  | reduce_shoup => ∀ a, a < 2 ^ 32 →
      modmult_32 .shoup a 1 (cc.primes primeid) (cc.one_shoup primeid) =
        modmult .shoup a 1 (cc.primes primeid) (cc.one_shoup primeid)
  | modreduce => ∀ x, x < 2 ^ 128 →
      Modular.modreduce x (cc.primes primeid) % 2 ^ 32 = Modular.modreduce x (cc.primes primeid)
  | modreduce_32 => ∀ x, x < 2 ^ 64 →
      Modular.modreduce_32 x (cc.primes primeid) = Modular.modreduce x (cc.primes primeid)
  | add_scale_p_a_ => ∀ elem_b a b, Residues cc primeid a → Residues cc primeid b →
      ∀ idx, idx < cc.N → NarrowLimbs.add_scale_p_a_ cc false primeid elem_b a b idx =
        NarrowLimbs.add_scale_p_a_ cc true primeid elem_b a b idx
  | add_scale_p_b_ => ∀ elem_b a b, Residues cc primeid a → Residues cc primeid b →
      ∀ idx, idx < cc.N → NarrowLimbs.add_scale_p_b_ cc false primeid elem_b a b idx =
        NarrowLimbs.add_scale_p_b_ cc true primeid elem_b a b idx
  | square_ => ∀ l1, Residues cc primeid l1 →
      ∀ idx, idx < cc.N → NarrowLimbs.square_ cc false primeid l1 idx =
        NarrowLimbs.square_ cc true primeid l1 idx
  | SwitchModulus om_pid => ∀ a, a < cc.primes om_pid →
      SwitchModulus_32 (cc.primes om_pid) (cc.primes primeid) a =
        cc.SwitchModulus om_pid primeid a

/-- A kernel of a limb, whose source limb is another narrow one. -/
def Kernel.Source (raw : RawParams) (primeid : Nat) : Kernel → Prop
  | SwitchModulus om_pid => om_pid < raw.L + raw.K ∧ om_pid ≠ primeid ∧ raw.prime om_pid < 2 ^ 30
  | _ => True

/-- This is the condition under which both branches of a kernel agree. -/
def Kernel.Condition (cc : Constants) (primeid : Nat) : Kernel → Prop
  | modmult_shoup => 2 ^ 32 % cc.primes primeid = 1
  | reduce_shoup => 2 ^ 32 % cc.primes primeid = 1
  | modreduce => True
  | modreduce_32 => False
  | add_scale_p_a_ => cc.P primeid = 0
  | add_scale_p_b_ => cc.P primeid = 0
  | square_ => False
  | SwitchModulus om_pid =>
      cc.primes om_pid < cc.primes primeid ∨ 2 ^ 32 % cc.primes primeid = 1

/-- The narrow branch of a kernel that reads wide words takes the word of twice the index. -/
theorem wide_low {limb : Words} (word : ∀ idx, limb idx < 2 ^ 32) (idx : Nat) :
    wide limb idx % 2 ^ 32 = limb (2 * idx) := by
  rw [wide, Nat.add_mul_mod_self_left, Nat.mod_eq_of_lt (word _)]

/-- A limb whose only nonzero word is the one at index one. -/
def single : Words := fun idx => if idx = 1 then 1 else 0

section Branches

variable {cc : Constants} {primeid : Nat} (narrow : NarrowModulus (cc.primes primeid))

include narrow

theorem single_residues : Residues cc primeid single where
  residue := by
    intro idx _
    have large := narrow.large
    unfold single
    split_ifs <;> omega
  word := by
    intro idx
    unfold single
    split_ifs <;> norm_num

theorem zero_residues : Residues cc primeid fun _ => 0 where
  residue := fun _ _ => narrow.pos
  word := fun _ => by norm_num

/-- The prepared product agrees exactly where a word is one modulo the prime. -/
theorem reduce_shoup_agrees_iff (prime : (cc.primes primeid).Prime) :
    Kernel.reduce_shoup.Agrees cc primeid ↔ 2 ^ 32 % cc.primes primeid = 1 := by
  constructor
  · intro agrees
    by_contra other
    have small := narrow.small
    have large := narrow.large
    have same := agrees (cc.primes primeid - 1) (by omega)
    rw [KeySwitch.one_shoup_mult narrow.modulus (by omega),
      Nat.mod_eq_of_lt (show cc.primes primeid - 1 < cc.primes primeid by omega)] at same
    exact reduce_32_pred prime narrow other same
  · intro one a word
    rw [KeySwitch.one_shoup_mult narrow.modulus (by omega)]
    exact reduce_32_exact narrow one word

theorem modmult_shoup_agrees_iff (prime : (cc.primes primeid).Prime) :
    Kernel.modmult_shoup.Agrees cc primeid ↔ 2 ^ 32 % cc.primes primeid = 1 := by
  have small := narrow.small
  have large := narrow.large
  constructor
  · intro agrees
    by_contra other
    have same := agrees (cc.primes primeid - 1) 1 (by omega) (by omega)
    rw [modmult_eq narrow.modulus .shoup (by omega) (by omega), Nat.mul_one,
      Nat.mod_eq_of_lt (show cc.primes primeid - 1 < cc.primes primeid by omega)] at same
    exact reduce_32_pred prime narrow other same
  · intro one a b left right
    rw [modmult_eq narrow.modulus .shoup left right]
    exact Shoup_mult_32_exact narrow one (by omega) right

/-- The reduction of a wide sum fits the words of a narrow limb. -/
theorem modreduce_agrees : Kernel.modreduce.Agrees cc primeid := by
  intro x word
  have small := narrow.small
  have rest : x % cc.primes primeid < cc.primes primeid := Nat.mod_lt _ narrow.pos
  rw [modreduce_exact narrow.half (by have large := narrow.large; omega) word]
  exact Nat.mod_eq_of_lt (by omega)

/-- The reduction of a double word loses the digits above twice the width of the prime. -/
theorem modreduce_32_differs (prime : (cc.primes primeid).Prime) :
    ¬ Kernel.modreduce_32.Agrees cc primeid := by
  intro agrees
  have small := narrow.small
  have large := narrow.large
  obtain ⟨two, -, -, -⟩ := prime_bits_bounds narrow.modulus
  have short : prime_bits (cc.primes primeid) ≤ 30 := Nat.size_le.mpr small
  set bits := prime_bits (cc.primes primeid) with bits_def
  have bound : 2 ^ (bits - 2) ≤ 2 ^ 28 := Nat.pow_le_pow_right two_pos (by omega)
  have positive := Nat.two_pow_pos (bits - 2)
  have same := agrees (2 ^ 32 * 2 ^ (bits - 2)) (by omega)
  have shifted : (2 ^ 32 * 2 ^ (bits - 2)) >>> (bits - 2) = 2 ^ 32 := by
    rw [Nat.shiftRight_eq_div_pow, Nat.mul_div_cancel _ positive]
  have lost : Modular.modreduce_32 (2 ^ 32 * 2 ^ (bits - 2)) (cc.primes primeid) = 0 := by
    simp only [Modular.modreduce_32, Neal_reduce_32, ← bits_def, shifted]
    simp [umulhi, WordReduction.difference, WordReduction.correct]
  rw [lost, modreduce_exact narrow.half (by omega) (by omega), ← pow_add] at same
  have divides := prime.dvd_of_dvd_pow (Nat.dvd_of_mod_eq_zero same.symm)
  have least := Nat.le_of_dvd (by omega) divides
  omega

/-- The square of a narrow limb takes the words of twice the index. -/
theorem square_differs (size : 2 ≤ cc.N) : ¬ Kernel.square_.Agrees cc primeid := by
  intro agrees
  have large := narrow.large
  have same := agrees single (single_residues narrow) 1 (by omega)
  have left : square_ cc false primeid single 1 = 0 := by
    simp only [square_, Bool.false_eq_true, if_false,
      wide_low (single_residues narrow).word]
    exact modmult_32_barrett narrow narrow.pos narrow.pos
  have right : square_ cc true primeid single 1 = 1 := by
    have product := barrett_eq narrow.modulus (show 1 < cc.primes primeid by omega)
      (show 1 < cc.primes primeid by omega)
    rwa [Nat.mul_one, Nat.mod_eq_of_lt (show 1 < cc.primes primeid by omega)] at product
  rw [left, right] at same
  exact absurd same (by norm_num)

/-- Both branches of a scaled sum agree where the special modulus is zero in the limb. -/
theorem addScaled_agrees (zero : cc.P primeid = 0) {scaled : Words} (place : Nat) {added : Nat}
    (small : added < cc.primes primeid) :
    addScaled cc false primeid scaled place added = addScaled cc true primeid scaled place added := by
  have short := narrow.small
  have prepared : cc.P_shoup primeid = 0 := by
    simp [Constants.P_shoup, zero, shoup_precomp]
  have wideSum : addScaled cc true primeid scaled place added = added := by
    have product : modmult .shoup (scaled place) 0 (cc.primes primeid) 0 = 0 := by
      simp [modmult, Shoup_mult_64, umul64hi, WordReduction.difference, WordReduction.correct]
    simp only [addScaled, if_true, zero, prepared, product, modadd, Nat.add_zero]
    rw [Nat.mod_eq_of_lt (by omega), WordReduction.correct, if_neg (by omega)]
  have narrowSum : addScaled cc false primeid scaled place added = added := by
    have product : modmult_32 .shoup (wide scaled place % 2 ^ 32) (0 % 2 ^ 32)
        (cc.primes primeid) 0 = 0 := by
      simp [modmult_32, Shoup_mult_32, umulhi, WordReduction.difference, WordReduction.correct]
    simp only [addScaled, Bool.false_eq_true, if_false, zero, prepared, product, modadd_32,
      Nat.add_zero]
    rw [Nat.mod_eq_of_lt (by omega), WordReduction.correct, if_neg (by omega)]
  rw [wideSum, narrowSum]

/-- A scaled sum of the single word differs where the special modulus is not zero. -/
theorem addScaled_differs (nonzero : cc.P primeid ≠ 0) :
    addScaled cc false primeid single 1 0 ≠ addScaled cc true primeid single 1 0 := by
  have short := narrow.small
  have large := narrow.large
  have residue : cc.P primeid < cc.primes primeid := modinv_lt (by omega) _
  have wideSum : addScaled cc true primeid single 1 0 = cc.P primeid := by
    have product : modmult .shoup 1 (cc.P primeid) (cc.primes primeid) (cc.P_shoup primeid) =
        cc.P primeid := by
      rw [Constants.P_shoup, modmult_eq narrow.modulus .shoup (by omega) residue, Nat.one_mul,
        Nat.mod_eq_of_lt residue]
    have one : single 1 = 1 := rfl
    simp only [addScaled, if_true, one, product, modadd, Nat.zero_add]
    rw [Nat.mod_eq_of_lt (by omega), WordReduction.correct, if_neg (by omega)]
  have narrowSum : addScaled cc false primeid single 1 0 = 0 := by
    have none : single (2 * 1) = 0 := rfl
    have product : modmult_32 .shoup 0 (cc.P primeid % 2 ^ 32) (cc.primes primeid)
        (cc.P_shoup primeid) = 0 := by
      simp [modmult_32, Shoup_mult_32, umulhi, WordReduction.difference, WordReduction.correct]
    simp only [addScaled, Bool.false_eq_true, if_false, wide_low (single_residues narrow).word,
      none, product, modadd_32, Nat.zero_add]
    rw [Nat.zero_mod, WordReduction.correct, if_neg (by omega)]
  rw [wideSum, narrowSum]
  exact Ne.symm nonzero

theorem add_scale_p_b_agrees_iff (size : 2 ≤ cc.N) :
    Kernel.add_scale_p_b_.Agrees cc primeid ↔ cc.P primeid = 0 := by
  constructor
  · intro agrees
    by_contra nonzero
    have same := agrees cc.N (fun _ => 0) single (zero_residues narrow) (single_residues narrow) 1
      (by omega)
    simp only [add_scale_p_b_, Kernels.logstride_self (show 0 < cc.N by omega),
      Nat.shiftRight_zero] at same
    exact addScaled_differs narrow nonzero same
  · intro zero elem_b a b left right idx inside
    exact addScaled_agrees narrow zero _ (left.residue idx inside)

theorem add_scale_p_a_agrees_iff (size : 2 ≤ cc.N) :
    Kernel.add_scale_p_a_.Agrees cc primeid ↔ cc.P primeid = 0 := by
  constructor
  · intro agrees
    by_contra nonzero
    have same := agrees cc.N single (fun _ => 0) (single_residues narrow) (zero_residues narrow) 1
      (by omega)
    exact addScaled_differs narrow nonzero same
  · intro zero elem_b a b left right idx inside
    refine addScaled_agrees narrow zero _ (right.residue _ ?_)
    rw [Nat.shiftRight_eq_div_pow]
    exact lt_of_le_of_lt (Nat.div_le_self _ _) inside

/-- The wide switch of the upper half, between the modulus and its double. -/
theorem SwitchModulus_near {om_pid a : Nat} (source : NarrowModulus (cc.primes om_pid))
    (wider : cc.primes primeid < cc.primes om_pid)
    (double : cc.primes om_pid < 2 * cc.primes primeid) (inside : a < cc.primes om_pid)
    (upper : cc.primes om_pid / 2 < a) :
    cc.SwitchModulus om_pid primeid a + cc.primes om_pid = a + cc.primes primeid := by
  have odd := source.odd
  have rest : cc.primes om_pid % cc.primes primeid = cc.primes om_pid - cc.primes primeid := by
    rw [Nat.mod_eq_sub_mod wider.le, Nat.mod_eq_of_lt (by omega)]
  rw [KeySwitch.SwitchModulus_eq source.modulus narrow.modulus inside, if_pos upper, rest,
    Nat.mod_eq_sub_mod (by omega), Nat.mod_eq_of_lt (by omega)]
  omega

/-- The narrow switch to a larger modulus is the wide one. -/
theorem SwitchModulus_larger {om_pid a : Nat} (source : NarrowModulus (cc.primes om_pid))
    (larger : cc.primes om_pid < cc.primes primeid) (inside : a < cc.primes om_pid) :
    SwitchModulus_32 (cc.primes om_pid) (cc.primes primeid) a =
      cc.SwitchModulus om_pid primeid a := by
  have small := narrow.small
  have odd := source.odd
  have half : cc.primes om_pid >>> 1 = cc.primes om_pid / 2 := by
    rw [Nat.shiftRight_eq_div_pow, pow_one]
  rw [KeySwitch.SwitchModulus_eq source.modulus narrow.modulus inside, Nat.mod_eq_of_lt larger]
  simp only [SwitchModulus_32, gt_iff_lt, if_pos larger, half]
  split_ifs with upper
  · rw [Nat.mod_eq_of_lt (by omega), Nat.mod_eq_of_lt (by omega)]
  · rw [Nat.mod_eq_of_lt (by omega)]

/-- The narrow switch is the wide one where the narrow reduction is exact. -/
theorem SwitchModulus_exact {om_pid a : Nat} (source : NarrowModulus (cc.primes om_pid))
    (smaller : cc.primes primeid ≤ cc.primes om_pid) (one : 2 ^ 32 % cc.primes primeid = 1)
    (inside : a < cc.primes om_pid) :
    SwitchModulus_32 (cc.primes om_pid) (cc.primes primeid) a =
      cc.SwitchModulus om_pid primeid a := by
  have small := narrow.small
  have short := source.small
  have half : cc.primes om_pid >>> 1 = cc.primes om_pid / 2 := by
    rw [Nat.shiftRight_eq_div_pow, pow_one]
  have rest : cc.primes om_pid % cc.primes primeid < cc.primes primeid := Nat.mod_lt _ narrow.pos
  have reduced : ∀ y, y < 2 ^ 32 →
      modmult_32 .shoup y 1 (cc.primes primeid) (one_shoup (cc.primes primeid)) =
        y % cc.primes primeid := fun y word => reduce_32_exact narrow one word
  rw [KeySwitch.SwitchModulus_eq source.modulus narrow.modulus inside]
  simp only [SwitchModulus_32, gt_iff_lt, if_neg (show ¬ cc.primes om_pid < cc.primes primeid by omega),
    half, reduced _ (show cc.primes om_pid < 2 ^ 32 by omega),
    WordReduction.difference_eq rest.le (show _ < 2 ^ 32 by omega)]
  have wrapped : (a + (cc.primes primeid - cc.primes om_pid % cc.primes primeid)) % 2 ^ 32 =
      a + (cc.primes primeid - cc.primes om_pid % cc.primes primeid) :=
    Nat.mod_eq_of_lt (by omega)
  rw [wrapped]
  split_ifs with upper large large
  · exact reduced _ (by omega)
  · exact (Nat.mod_eq_of_lt (by omega)).symm
  · exact reduced _ (by omega)
  · exact (Nat.mod_eq_of_lt (by omega)).symm

/-- The switch agrees exactly to a larger modulus or where a word is one modulo the prime. -/
theorem SwitchModulus_agrees_iff {om_pid : Nat} (prime : (cc.primes primeid).Prime)
    (source : NarrowModulus (cc.primes om_pid)) (different : cc.primes om_pid ≠ cc.primes primeid) :
    (Kernel.SwitchModulus om_pid).Agrees cc primeid ↔
      cc.primes om_pid < cc.primes primeid ∨ 2 ^ 32 % cc.primes primeid = 1 := by
  have odd := source.odd
  have positive := narrow.pos
  constructor
  · intro agrees
    by_contra neither
    push Not at neither
    obtain ⟨smaller, other⟩ := neither
    have wider : cc.primes primeid < cc.primes om_pid := by omega
    rcases Nat.lt_or_ge (cc.primes om_pid) (2 * cc.primes primeid) with near | far
    · have large := narrow.large
      rcases SwitchModulus_32_near prime narrow other wider near odd source.small with last | first
      · apply last
        rw [agrees _ (by omega)]
        exact SwitchModulus_near narrow source wider near (by omega) (by omega)
      · apply first
        rw [agrees _ (by omega)]
        exact SwitchModulus_near narrow source wider near (by omega) (by omega)
    · have same := agrees (cc.primes primeid) wider
      have half : cc.primes om_pid >>> 1 = cc.primes om_pid / 2 := by
        rw [Nat.shiftRight_eq_div_pow, pow_one]
      rw [KeySwitch.SwitchModulus_eq source.modulus narrow.modulus wider,
        if_neg (by omega), Nat.mod_self] at same
      simp only [SwitchModulus_32, gt_iff_lt, if_neg (show ¬ cc.primes om_pid < cc.primes primeid by omega),
        half, if_neg (show ¬ cc.primes om_pid / 2 < cc.primes primeid by omega), ge_iff_le,
        le_refl, if_true] at same
      exact reduce_32_self prime narrow other same
  · rintro (larger | one) a inside
    · exact SwitchModulus_larger narrow source larger inside
    · rcases Nat.lt_or_ge (cc.primes om_pid) (cc.primes primeid) with larger | smaller
      · exact SwitchModulus_larger narrow source larger inside
      · exact SwitchModulus_exact narrow source smaller one inside

end Branches

section Context

variable {raw : RawParams} (generated : raw.Generated)

include generated

/-- The primes of the accepted narrow limbs are odd. -/
theorem narrowModulus {id : Nat} (inside : id < raw.L + raw.K) (short : raw.prime id < 2 ^ 30) :
    NarrowModulus (raw.prime id) where
  large := by
    have two := (generated.prime id inside).two_le
    have other := generated.odd id inside
    omega
  small := short
  odd := (generated.prime id inside).eq_two_or_odd.resolve_left (generated.odd id inside)

/-- The branches of a kernel agree exactly under its condition, and never all of them. -/
theorem narrow_limbs_agree_iff {primeid : Nat} (inside : primeid < raw.L + raw.K)
    (short : raw.prime primeid < 2 ^ 30) :
    (∀ kernel : Kernel, kernel.Source raw primeid →
      (kernel.Agrees (SetupConstants raw) primeid ↔
        kernel.Condition (SetupConstants raw) primeid)) ∧
    ¬ ∀ kernel : Kernel, kernel.Source raw primeid →
      kernel.Agrees (SetupConstants raw) primeid := by
  have narrow : NarrowModulus ((SetupConstants raw).primes primeid) :=
    narrowModulus generated inside short
  have prime : ((SetupConstants raw).primes primeid).Prime := generated.prime primeid inside
  have size : 2 ≤ (SetupConstants raw).N := by
    have ring := generated.ring
    calc 2 = 2 ^ 1 := rfl
      _ ≤ 2 ^ raw.logN := Nat.pow_le_pow_right two_pos (by omega)
  refine ⟨fun kernel source => ?_, fun every => square_differs narrow size (every .square_ trivial)⟩
  cases kernel with
  | modmult_shoup => exact modmult_shoup_agrees_iff narrow prime
  | reduce_shoup => exact reduce_shoup_agrees_iff narrow prime
  | modreduce => exact iff_of_true (modreduce_agrees narrow) trivial
  | modreduce_32 => exact iff_of_false (modreduce_32_differs narrow prime) id
  | add_scale_p_a_ => exact add_scale_p_a_agrees_iff narrow size
  | add_scale_p_b_ => exact add_scale_p_b_agrees_iff narrow size
  | square_ => exact iff_of_false (square_differs narrow size) id
  | SwitchModulus om_pid =>
      obtain ⟨known, other, small⟩ := source
      exact SwitchModulus_agrees_iff narrow prime (narrowModulus generated known small)
        fun same => other (generated.distinct _ _ known inside same)

end Context

/-- The word is one modulo 257, so the prepared products agree there, and the squares do not. -/
theorem narrow_limbs_agree_small :
    Kernel.modmult_shoup.Agrees (SetupConstants KeySwitch.smallParams) 0 ∧
      ¬ Kernel.square_.Agrees (SetupConstants KeySwitch.smallParams) 0 := by
  obtain ⟨each, -⟩ := narrow_limbs_agree_iff KeySwitch.smallParams_generated
    (show 0 < KeySwitch.smallParams.L + KeySwitch.smallParams.K by decide) (by decide)
  have one : 2 ^ 32 % (SetupConstants KeySwitch.smallParams).primes 0 = 1 := by decide
  exact ⟨(each .modmult_shoup trivial).mpr one,
    fun agrees => (each .square_ trivial).mp agrees⟩

/-- The largest residue of 3329 is not fixed by the product with one, and a square is lost. -/
theorem narrow_limbs_differ :
    modmult_32 .shoup 3328 1 3329 (one_shoup 3329) ≠ modmult .shoup 3328 1 3329 (one_shoup 3329) ∧
      square_ (SetupConstants KeySwitch.smallParams) false 1 single 1 ≠
        square_ (SetupConstants KeySwitch.smallParams) true 1 single 1 ∧
      ¬ ∀ kernel : Kernel, kernel.Source KeySwitch.smallParams 1 →
        kernel.Agrees (SetupConstants KeySwitch.smallParams) 1 := by
  have product : modmult_32 .shoup 3328 1 3329 (one_shoup 3329) ≠
      modmult .shoup 3328 1 3329 (one_shoup 3329) := by decide
  refine ⟨product, by decide, fun every => ?_⟩
  exact product (every .modmult_shoup trivial 3328 1 (by decide) (by decide))

end Fideslib.NarrowLimbs
