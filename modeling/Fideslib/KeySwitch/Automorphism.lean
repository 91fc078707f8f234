/-
This file models the automorphism of a limb and proves that its slots move as the ring does.
-/

import Fideslib.KeySwitch.DotKeySwitch
import Fideslib.KeySwitch.ModDownContract
import Fideslib.Library.BitReversal

namespace Fideslib.KeySwitch

open BitReversal (reverse reverse_lt reverse_div reverse_reverse reverse_mod)
open Fideslib.Modular

def brev (x : Nat) : Nat := reverse 32 x

/-- The slot of the source goes to this slot of the result. -/
def automorph_slot (n_bits index slot : Nat) : Nat :=
  let j := brev slot >>> (32 - n_bits)
  let jTmp := (j <<< 1) + 1
  let rotIndex := ((jTmp * index % 2 ^ 32) &&& ((1 <<< (n_bits + 1)) - 1)) >>> 1
  brev rotIndex >>> (32 - n_bits)

def automorph__ (n_bits index : Nat) (a : Limb) (j : Nat) : List (Nat × Nat) :=
  [(automorph_slot n_bits index j, a j)]

/-- The difference is a signed word, which the power reads as an unsigned one. -/
def automorph_index_precomp (idx : Int) (num_elems : Nat) : Nat :=
  modpow 5 (((2 * (num_elems : Int) - idx).bmod (2 ^ 32)) % 2 ^ 64).toNat (2 * num_elems)

/-- The automorphism in place leaves its result in the second buffer and swaps the pointers. -/
def RNSPoly.automorph (cc : Constants) (order : Nat → List Nat) (aux specialAux : Nat → Limb)
    (idx : Int) (slots : Nat) (self : RNSPoly) : RNSPoly :=
  let k := automorph_index_precomp idx (2 * slots)
  let logn := (2 * slots).size - 1
  { self with
    limb := onLimbs (self.level + 1)
      (fun i => Scatter.launch (automorph__ logn k (self.limb i)) (order i) (aux i)) aux
    special := if self.modUp then
        onLimbs cc.K (fun i =>
          Scatter.launch (automorph__ logn k (self.special i)) (order (cc.L + i)) (specialAux i))
          specialAux
      else self.special }

section Slots

variable {n_bits : Nat} (narrow : n_bits ≤ 31)

include narrow

theorem brev_low (x : Nat) : brev x >>> (32 - n_bits) = reverse n_bits x := by
  rw [brev, Nat.shiftRight_eq_div_pow]
  exact reverse_div 32 (by omega) x

/-- The slots are numbered by the odd exponents of a primitive root. -/
theorem automorph_slot_eq (index slot : Nat) :
    automorph_slot n_bits index slot =
      reverse n_bits ((2 * reverse n_bits slot + 1) * index % 2 ^ (n_bits + 1) / 2) := by
  have mask : 1 <<< (n_bits + 1) = 2 ^ (n_bits + 1) := by rw [Nat.shiftLeft_eq, Nat.one_mul]
  have divides : 2 ^ (n_bits + 1) ∣ 2 ^ 32 := Nat.pow_dvd_pow 2 (by omega)
  simp only [automorph_slot, brev_low narrow]
  rw [mask, Nat.and_two_pow_sub_one_eq_mod, Nat.mod_mod_of_dvd _ divides, Nat.shiftLeft_eq,
    Nat.shiftRight_eq_div_pow, pow_one, Nat.mul_comm (reverse n_bits slot)]

/-- The word comes from the slot whose point is the power of this point. -/
theorem automorph_slot_exponent {index : Nat} (odd : index % 2 = 1) (slot : Nat) :
    (2 * reverse n_bits slot + 1) * index % 2 ^ (n_bits + 1) =
      2 * reverse n_bits (automorph_slot n_bits index slot) + 1 := by
  have whole : 2 ^ (n_bits + 1) = 2 * 2 ^ n_bits := by rw [pow_succ]; ring
  set moved := (2 * reverse n_bits slot + 1) * index % 2 ^ (n_bits + 1) with moved_def
  have moved_lt : moved < 2 * 2 ^ n_bits := whole ▸ Nat.mod_lt _ (Nat.two_pow_pos _)
  have moved_odd : moved % 2 = 1 := by
    rw [moved_def, Nat.mod_mod_of_dvd _ (dvd_pow_self 2 n_bits.succ_ne_zero), Nat.mul_mod, odd]
    omega
  rw [automorph_slot_eq narrow, ← moved_def, reverse_reverse (by omega)]
  omega

theorem automorph_slot_lt (index slot : Nat) : automorph_slot n_bits index slot < 2 ^ n_bits := by
  rw [automorph_slot_eq narrow]
  exact reverse_lt n_bits _

/-- A slot comes back under the inverse multiplier. -/
theorem automorph_slot_inverse {index inverse slot : Nat} (odd : index % 2 = 1)
    (cancels : index * inverse % 2 ^ (n_bits + 1) = 1) (inside : slot < 2 ^ n_bits) :
    automorph_slot n_bits inverse (automorph_slot n_bits index slot) = slot := by
  have whole : 2 ^ (n_bits + 1) = 2 * 2 ^ n_bits := by rw [pow_succ]; ring
  have position := reverse_lt n_bits slot
  have back : (2 * reverse n_bits slot + 1) * index % 2 ^ (n_bits + 1) * inverse % 2 ^ (n_bits + 1) =
      2 * reverse n_bits slot + 1 := by
    rw [Nat.mod_mul_mod, Nat.mul_assoc, Nat.mul_mod, cancels, Nat.mul_one, Nat.mod_mod,
      Nat.mod_eq_of_lt (by omega)]
  rw [automorph_slot_eq narrow inverse, ← automorph_slot_exponent narrow odd, back,
    show (2 * reverse n_bits slot + 1) / 2 = reverse n_bits slot by omega, reverse_reverse inside]

end Slots

/-- The threads of a limb move its words in each order. -/
theorem automorph_launch {n_bits : Nat} (narrow : n_bits ≤ 31) {index inverse : Nat}
    (odd : inverse % 2 = 1) (indexOdd : index % 2 = 1)
    (cancels : index * inverse % 2 ^ (n_bits + 1) = 1) (a : Limb) {order : List Nat}
    (covers : ∀ j, j ∈ order ↔ j < 2 ^ n_bits) (old : Limb) {slot : Nat} (inside : slot < 2 ^ n_bits) :
    Scatter.launch (automorph__ n_bits index a) order old slot =
      a (automorph_slot n_bits inverse slot) := by
  have determined : ∀ j ∈ order, Scatter.Determined (automorph__ n_bits index a j)
      (fun cell => a (automorph_slot n_bits inverse cell)) := by
    intro j runs write mem
    rw [automorph__, List.mem_singleton] at mem
    dsimp only
    rw [mem, automorph_slot_inverse narrow indexOdd cancels ((covers j).mp runs)]
  have runs : automorph_slot n_bits inverse slot ∈ order :=
    (covers _).mpr (automorph_slot_lt narrow _ _)
  have back := automorph_slot_inverse narrow odd (Nat.mul_comm index inverse ▸ cancels) inside
  exact Scatter.launch_determined determined runs ⟨_, List.mem_singleton.mpr rfl, back⟩ old

/-- An odd multiplier has an inverse, which is odd as well. -/
theorem odd_inverse {index : Nat} (odd : index % 2 = 1) (n_bits : Nat) :
    ∃ inverse, inverse % 2 = 1 ∧ index * inverse % 2 ^ (n_bits + 1) = 1 := by
  have coprime : Nat.Coprime index (2 ^ (n_bits + 1)) :=
    Nat.Coprime.pow_right _ (Nat.coprime_two_right.mpr (Nat.odd_iff.mpr odd))
  have large : 1 < 2 ^ (n_bits + 1) := Nat.one_lt_two_pow n_bits.succ_ne_zero
  obtain ⟨inverse, -, cancels⟩ := Nat.exists_mul_mod_eq_one_of_coprime coprime large
  have parity : index * inverse % 2 = 1 := by
    rw [← Nat.mod_mod_of_dvd _ (dvd_pow_self 2 n_bits.succ_ne_zero), cancels]
  rw [Nat.mul_mod, odd] at parity
  exact ⟨inverse, by omega, cancels⟩

/-- Powers of five are odd, and so are their residues modulo an even number. -/
theorem automorph_index_odd (idx : Int) (num_elems : Nat) :
    automorph_index_precomp idx num_elems % 2 = 1 := by
  rw [automorph_index_precomp]
  generalize (((2 * (num_elems : Int) - idx).bmod (2 ^ 32)) % 2 ^ 64).toNat = exponent
  have power := modpowLoop_cast (2 * num_elems) 5 exponent 1
  rw [Nat.cast_one, mul_one, ← Nat.cast_pow] at power
  have residue := (ZMod.natCast_eq_natCast_iff' _ _ _).mp power
  have parity := congrArg (· % 2) residue
  rw [Nat.mod_mul_right_mod, Nat.mod_mul_right_mod, Nat.pow_mod] at parity
  rw [modpow]
  simpa using parity

end Fideslib.KeySwitch

namespace Fideslib.KeySwitch

open BitReversal
open Constants (SetupConstants)
open Fideslib.Modular
open NegacyclicRing

/-- A signed multiplier is read as an unsigned word. -/
def word (k : Int) : Nat := (k % 2 ^ 32).toNat

theorem word_odd {k : Int} (odd : k % 2 = 1) : word k % 2 = 1 := by
  unfold word
  omega

/-- A word keeps the residues modulo the powers below its width. -/
theorem word_cast {bits : Nat} (narrow : bits ≤ 32) (k : Int) : (word k : ZMod (2 ^ bits)) = k := by
  have divides : ((2 ^ bits : Nat) : Int) ∣ 2 ^ 32 := by
    exact_mod_cast Nat.pow_dvd_pow 2 narrow
  have natural : ((word k : Nat) : Int) = k % 2 ^ 32 := Int.toNat_of_nonneg (by omega)
  have congruent : ((word k : Nat) : Int) ≡ k [ZMOD (2 ^ bits : Nat)] := by
    rw [natural]
    exact (Int.mod_modEq k (2 ^ 32)).of_dvd divides
  have cast := (ZMod.intCast_eq_intCast_iff _ _ _).mpr congruent
  rwa [Int.cast_natCast] at cast

section Slots

variable {n_bits : Nat} (narrow : n_bits ≤ 31)

include narrow

/-- A multiplier matters modulo twice the number of slots. -/
theorem automorph_slot_congr {index other : Nat}
    (same : (index : ZMod (2 ^ (n_bits + 1))) = other) (slot : Nat) :
    automorph_slot n_bits index slot = automorph_slot n_bits other slot := by
  have residue := (ZMod.natCast_eq_natCast_iff' _ _ _).mp same
  rw [automorph_slot_eq narrow, automorph_slot_eq narrow, Nat.mul_mod, residue, ← Nat.mul_mod]

/-- Two moves of the slots are one move by the product of the multipliers. -/
theorem automorph_slot_comp {first : Nat} (odd : first % 2 = 1) (second slot : Nat) :
    automorph_slot n_bits second (automorph_slot n_bits first slot) =
      automorph_slot n_bits (first * second) slot := by
  rw [automorph_slot_eq narrow second, ← automorph_slot_exponent narrow odd,
    automorph_slot_eq narrow (first * second), Nat.mod_mul_mod, Nat.mul_assoc]

/-- An odd multiplier permutes the slots. -/
theorem automorph_slot_bijOn {index : Nat} (odd : index % 2 = 1) :
    Set.BijOn (automorph_slot n_bits index) (Set.Iio (2 ^ n_bits)) (Set.Iio (2 ^ n_bits)) := by
  obtain ⟨inverse, inverseOdd, cancels⟩ := odd_inverse odd n_bits
  refine Set.InvOn.bijOn ⟨?_, ?_⟩ (fun slot _ => automorph_slot_lt narrow index slot)
    (fun slot _ => automorph_slot_lt narrow inverse slot)
  · intro slot inside
    exact automorph_slot_inverse narrow odd cancels inside
  · intro slot inside
    exact automorph_slot_inverse narrow inverseOdd (Nat.mul_comm index inverse ▸ cancels) inside

end Slots

/-- The slot of a block is the block of the slot. -/
theorem automorph_slot_block {n_bits m : Nat} (narrow : n_bits + m ≤ 31) (index slot : Nat) :
    automorph_slot (n_bits + m) index slot / 2 ^ m =
      automorph_slot n_bits index (slot / 2 ^ m) := by
  have width : n_bits + m - n_bits = m := by omega
  have low : slot % 2 ^ m < 2 ^ m := Nat.mod_lt _ (Nat.two_pow_pos m)
  have parts := reverse_append m n_bits (slot / 2 ^ m) low
  rw [Nat.div_add_mod'] at parts
  have outer := fun x => @reverse_div (n_bits + m) n_bits (by omega) x
  simp only [width] at outer
  rw [automorph_slot_eq narrow, automorph_slot_eq (by omega), outer, Nat.add_comm n_bits m, parts,
    ← reverse_mod]
  congr 1
  set inner := reverse n_bits (slot / 2 ^ m)
  set outerPart := reverse m (slot % 2 ^ m)
  have half : ∀ width x : Nat, x % 2 ^ (width + 1) / 2 = x / 2 % 2 ^ width := fun width x => by
    rw [pow_succ', Nat.mod_mul_right_div_self]
  have same : (2 * (outerPart * 2 ^ n_bits + inner) + 1) * index / 2 % 2 ^ n_bits =
      (2 * inner + 1) * index / 2 % 2 ^ n_bits := by
    rw [← half, ← half]
    congr 1
    have split : (2 * (outerPart * 2 ^ n_bits + inner) + 1) * index =
        (2 * inner + 1) * index + 2 ^ (n_bits + 1) * (outerPart * index) := by
      rw [pow_succ]
      ring
    rw [split, Nat.add_mul_mod_self_left]
  rw [half, half, Nat.mod_mod_of_dvd _ (Nat.pow_dvd_pow 2 (by omega)), same]

/-- A compressed limb stands for a limb of equal blocks. -/
def expand (logstride : Nat) (a : Limb) : Limb := fun idx => a (idx >>> logstride)

/-- The blocks of a compressed limb move as its words. -/
theorem automorph_launch_expand {n_bits m : Nat} (narrow : n_bits + m ≤ 31) {index short : Nat}
    (odd : index % 2 = 1) (same : (short : ZMod (2 ^ (n_bits + 1))) = index) (a : Limb)
    {order shortOrder : List Nat} (covers : ∀ j, j ∈ order ↔ j < 2 ^ (n_bits + m))
    (shortCovers : ∀ j, j ∈ shortOrder ↔ j < 2 ^ n_bits) (old shortOld : Limb) {slot : Nat}
    (inside : slot < 2 ^ (n_bits + m)) :
    Scatter.launch (automorph__ (n_bits + m) index (expand m a)) order old slot =
      expand m (Scatter.launch (automorph__ n_bits short a) shortOrder shortOld) slot := by
  obtain ⟨inverse, inverseOdd, cancels⟩ := odd_inverse odd (n_bits + m)
  have part : 2 ^ (n_bits + 1) ∣ 2 ^ (n_bits + m + 1) := Nat.pow_dvd_pow 2 (by omega)
  have shortCancels : index * inverse % 2 ^ (n_bits + 1) = 1 := by
    rw [← Nat.mod_mod_of_dvd _ part, cancels,
      Nat.mod_eq_of_lt (Nat.one_lt_two_pow n_bits.succ_ne_zero)]
  have block : slot / 2 ^ m < 2 ^ n_bits := by
    apply Nat.div_lt_of_lt_mul
    rwa [← pow_add, Nat.add_comm m]
  have moves : automorph__ n_bits short a = automorph__ n_bits index a := by
    funext j
    rw [automorph__, automorph__, automorph_slot_congr (by omega) same]
  have long := automorph_launch narrow inverseOdd odd cancels (expand m a) covers old inside
  have compressed := automorph_launch (show n_bits ≤ 31 by omega) inverseOdd odd shortCancels a
    shortCovers shortOld block
  rw [long, moves, expand, expand, Nat.shiftRight_eq_div_pow, Nat.shiftRight_eq_div_pow,
    automorph_slot_block narrow, compressed]

/-- Five is a unit modulo each power of two. -/
def five (n_bits : Nat) : (ZMod (2 ^ (n_bits + 1)))ˣ :=
  ZMod.unitOfCoprime 5 (Nat.Coprime.pow_right _ (by decide))

theorem five_cast (n_bits : Nat) : ((5 : Nat) : ZMod (2 ^ (n_bits + 1))) =
    (five n_bits ^ (1 : Int) : (ZMod (2 ^ (n_bits + 1)))ˣ) := by
  rw [zpow_one, five, ZMod.coe_unitOfCoprime]

/-- The order of a unit divides the number of slots. -/
theorem unit_pow_slots {n_bits : Nat} (unit : (ZMod (2 ^ (n_bits + 1)))ˣ) : unit ^ 2 ^ n_bits = 1 := by
  have order := ZMod.pow_totient unit
  rwa [Nat.totient_prime_pow_succ Nat.prime_two, Nat.mul_one] at order

/-- The precomputed multiplier is a negative power of five for each index. -/
theorem automorph_index_power {n_bits : Nat} (narrow : n_bits ≤ 32) (idx : Int) :
    (automorph_index_precomp idx (2 ^ n_bits) : ZMod (2 ^ (n_bits + 1))) =
      (five n_bits ^ (-idx) : (ZMod (2 ^ (n_bits + 1)))ˣ) := by
  have doubled : 2 * 2 ^ n_bits = 2 ^ (n_bits + 1) := (pow_succ' 2 n_bits).symm
  rw [automorph_index_precomp, modpow, doubled, modpowLoop_cast]
  set difference := 2 * ((2 ^ n_bits : Nat) : Int) - idx with difference_def
  have signed : difference.bmod (2 ^ 32) ≡ difference [ZMOD 2 ^ 32] := Int.bmod_emod
  have natural : (((difference.bmod (2 ^ 32) % 2 ^ 64).toNat : Nat) : Int) =
      difference.bmod (2 ^ 32) % 2 ^ 64 := Int.toNat_of_nonneg (by omega)
  set exponent := (difference.bmod (2 ^ 32) % 2 ^ 64).toNat
  have slots : ((2 ^ n_bits : Nat) : Int) ∣ 2 ^ 32 := by
    exact_mod_cast Nat.pow_dvd_pow 2 narrow
  have unsigned : (exponent : Int) ≡ difference.bmod (2 ^ 32) [ZMOD (2 ^ n_bits : Nat)] := by
    rw [natural]
    exact (Int.mod_modEq _ _).of_dvd (slots.trans ⟨2 ^ 32, by norm_num⟩)
  have negative : difference ≡ -idx [ZMOD (2 ^ n_bits : Nat)] := by
    rw [difference_def, sub_eq_add_neg, Int.ModEq, Int.add_comm, Int.add_mul_emod_self_right]
  obtain ⟨turns, distance⟩ :=
    Int.modEq_iff_dvd.mp ((unsigned.trans (signed.of_dvd slots)).trans negative).symm
  have powers : five n_bits ^ (exponent : Int) = five n_bits ^ (-idx) := by
    have split : (exponent : Int) = -idx + (2 ^ n_bits : Nat) * turns := by omega
    rw [split, zpow_add, zpow_mul, zpow_natCast, unit_pow_slots, one_zpow, mul_one]
  rw [← powers, zpow_natCast, Units.val_pow_eq_pow_val, five, ZMod.coe_unitOfCoprime, Nat.cast_one,
    mul_one]

/-- The opposite power of five undoes the multiplier of an index. -/
theorem automorph_index_cancels {n_bits : Nat} (narrow : n_bits ≤ 32) {idx : Int} {inverse : Nat}
    (power : (inverse : ZMod (2 ^ (n_bits + 1))) =
      (five n_bits ^ idx : (ZMod (2 ^ (n_bits + 1)))ˣ)) :
    automorph_index_precomp idx (2 ^ n_bits) * inverse % 2 ^ (n_bits + 1) = 1 := by
  have product : ((automorph_index_precomp idx (2 ^ n_bits) * inverse : Nat) :
      ZMod (2 ^ (n_bits + 1))) = (1 : Nat) := by
    rw [Nat.cast_mul, power, automorph_index_power narrow, ← Units.val_mul, ← zpow_add,
      neg_add_cancel, zpow_zero, Units.val_one, Nat.cast_one]
  have residues := (ZMod.natCast_eq_natCast_iff' _ _ _).mp product
  rwa [Nat.mod_eq_of_lt (Nat.one_lt_two_pow n_bits.succ_ne_zero)] at residues

theorem automorph_index_lt (idx : Int) (n_bits : Nat) :
    automorph_index_precomp idx (2 ^ n_bits) < 2 ^ (n_bits + 1) := by
  rw [automorph_index_precomp, modpow, ← pow_succ']
  exact modpowLoop_lt _ _ (Nat.one_lt_two_pow n_bits.succ_ne_zero)

/-- The moves of two rotations are the move of their sum. -/
theorem automorph_index_add {n_bits : Nat} (narrow : n_bits ≤ 31) (i j : Int) (slot : Nat) :
    automorph_slot n_bits (automorph_index_precomp j (2 ^ n_bits))
        (automorph_slot n_bits (automorph_index_precomp i (2 ^ n_bits)) slot) =
      automorph_slot n_bits (automorph_index_precomp (i + j) (2 ^ n_bits)) slot := by
  rw [automorph_slot_comp narrow (automorph_index_odd i _)]
  apply automorph_slot_congr narrow
  have short : n_bits ≤ 32 := by omega
  rw [Nat.cast_mul, automorph_index_power short, automorph_index_power short,
    automorph_index_power short, ← Units.val_mul, ← zpow_add, neg_add]

section Ring

variable {raw : RawParams} (generated : raw.Generated) {id : Nat} (inside : id < raw.L + raw.K)

include generated inside

/-- A limb whose transform is known has known coefficients. -/
theorem INTT_unique {a : Limb} {x : Nat → ZMod (raw.prime id)}
    (transformed : ∀ slot, slot < raw.N → (a slot : ZMod (raw.prime id)) =
      NegacyclicTransform.forward (raw.root id : ZMod (raw.prime id)) (raw.logN - 1) x slot)
    {i : Nat} (bound : i < raw.N) :
    ((SetupConstants raw).INTT id a i : ZMod (raw.prime id)) = x i := by
  have positive := (generated.modulus inside).pos
  have back := congrFun (NegacyclicTransform.backward_forward (generated.root_inverse inside)
    (generated.count_inverse inside) x) i
  rw [← back]
  change residues ((SetupConstants raw).primes id) ((SetupConstants raw).INTT id a) i = _
  rw [Constants.residues_INTT positive]
  apply NegacyclicTransform.backward_congr
  · intro slot below
    exact transformed slot (lt_of_lt_of_eq below generated.dimension)
  · exact lt_of_lt_of_eq bound generated.dimension.symm

/-- The words of a canonical limb are the values of its coefficients. -/
theorem forward_INTT {a : Limb} (slot : Nat) :
    NegacyclicTransform.forward (raw.root id : ZMod (raw.prime id)) (raw.logN - 1)
      (residues (raw.prime id) ((SetupConstants raw).INTT id a)) slot = a slot := by
  have positive := (generated.modulus inside).pos
  have read : residues (raw.prime id) ((SetupConstants raw).INTT id a) =
      NegacyclicTransform.backward ((SetupConstants raw).inv_root id : ZMod (raw.prime id))
        ((SetupConstants raw).N_inv id) (raw.logN - 1) (residues (raw.prime id) a) :=
    Constants.residues_INTT positive a
  rw [read]
  exact congrFun (NegacyclicTransform.forward_backward (generated.root_inverse inside)
    (generated.count_inverse inside) _) slot

/-- A limb whose coefficients are known has a known transform. -/
theorem forward_unique {a : Limb} {x : Nat → ZMod (raw.prime id)}
    (coefficients : ∀ i, i < raw.N → ((SetupConstants raw).INTT id a i : ZMod (raw.prime id)) = x i)
    {slot : Nat} (bound : slot < raw.N) :
    (a slot : ZMod (raw.prime id)) =
      NegacyclicTransform.forward (raw.root id : ZMod (raw.prime id)) (raw.logN - 1) x slot := by
  rw [← forward_INTT generated inside]
  apply NegacyclicTransform.forward_congr
  · intro i below
    exact coefficients i (lt_of_lt_of_eq below generated.dimension)
  · exact lt_of_lt_of_eq bound generated.dimension.symm

theorem root_half : (raw.root id : ZMod (raw.prime id)) ^ 2 ^ (raw.logN - 1 + 1) = -1 := by
  have large := (generated.prime id inside).one_lt
  have half := congrArg (Nat.cast : Nat → ZMod (raw.prime id)) (generated.root id inside)
  rw [ZMod.natCast_mod, Nat.cast_pow, Nat.cast_sub large.le, ZMod.natCast_self, Nat.cast_one,
    zero_sub] at half
  rw [generated.dimension, half]

/-- A move of the slots substitutes a power of the variable. -/
theorem automorph_ring (narrow : raw.logN ≤ 31) {k inverse : Nat} (odd : k % 2 = 1)
    (cancels : k * inverse % 2 ^ (raw.logN + 1) = 1) (a : Limb) {order : List Nat}
    (covers : ∀ j, j ∈ order ↔ j < raw.N) (old : Limb) {i : Nat} (bound : i < raw.N) :
    ((SetupConstants raw).INTT id
        (Scatter.launch (automorph__ raw.logN k a) order old) i : ZMod (raw.prime id)) =
      reduced raw.N ((polynomial raw.N (residues (raw.prime id)
        ((SetupConstants raw).INTT id a))).comp (Polynomial.X ^ inverse)) i := by
  have fact := generated.fact_prime inside
  have bits : raw.logN - 1 + 1 = raw.logN := by
    have ring := generated.ring
    omega
  have inverseOdd : inverse % 2 = 1 := by
    have parity : k * inverse % 2 = 1 := by
      rw [← Nat.mod_mod_of_dvd _ (dvd_pow_self 2 raw.logN.succ_ne_zero), cancels]
    rw [Nat.mul_mod, odd] at parity
    omega
  apply INTT_unique generated inside _ bound
  intro slot below
  have source := automorph_slot_lt narrow inverse slot
  have moved : (2 * reverse (raw.logN - 1 + 1) slot + 1) * inverse % 2 ^ (raw.logN - 1 + 2) =
      2 * reverse (raw.logN - 1 + 1) (automorph_slot raw.logN inverse slot) + 1 := by
    rw [show raw.logN - 1 + 2 = raw.logN + 1 by omega, bits]
    exact automorph_slot_exponent narrow inverseOdd slot
  rw [automorph_launch narrow inverseOdd odd cancels a covers old below,
    ← forward_INTT generated inside, ← generated.dimension]
  refine (forward_comp (root_half generated inside) _ ?_ ?_ moved).symm
  · exact lt_of_lt_of_eq below generated.dimension.symm
  · rwa [bits]

omit inside in
/-- The automorphism of a polynomial launches the kernel on each of its limbs. -/
theorem automorph_limb (order : Nat → List Nat) (aux specialAux : Nat → Limb) (idx : Int)
    (poly : RNSPoly) (live : id ≤ poly.level ∧ id < raw.L ∨ poly.modUp ∧ raw.L ≤ id ∧
      id < raw.L + raw.K) :
    ∃ old, (poly.automorph (SetupConstants raw) order aux specialAux idx (raw.N / 2)).word raw id =
      Scatter.launch (automorph__ raw.logN (automorph_index_precomp idx raw.N) (poly.word raw id))
        (order id) old := by
  have whole : 2 * (raw.N / 2) = raw.N := by
    have dimension := generated.dimension
    rw [pow_succ] at dimension
    omega
  have bits : raw.N.size - 1 = raw.logN := by
    rw [RawParams.N, Nat.size_pow, Nat.add_sub_cancel]
  dsimp only [RNSPoly.automorph, RNSPoly.word]
  rw [whole, bits]
  rcases live with ⟨below, regular⟩ | ⟨extended, special⟩
  · rw [if_pos regular, if_pos regular, onLimbs_inside _ _ (by omega)]
    exact ⟨aux id, rfl⟩
  · have irregular : ¬id < raw.L := by omega
    have below : id - raw.L < (SetupConstants raw).K := by
      change id - raw.L < raw.K
      omega
    have place : (SetupConstants raw).L + (id - raw.L) = id := Nat.add_sub_cancel' special.1
    rw [if_neg irregular, if_neg irregular, if_pos extended, onLimbs_inside _ _ below, place]
    exact ⟨specialAux (id - raw.L), rfl⟩

end Ring

/-- The slots of each ring size move as the automorphisms of the ring. -/
structure AutomorphismLaw (n_bits : Nat) : Prop where
  permutes : ∀ k : Int, k % 2 = 1 →
    Set.BijOn (automorph_slot n_bits (word k)) (Set.Iio (2 ^ n_bits)) (Set.Iio (2 ^ n_bits))
  composes : ∀ first second : Int, first % 2 = 1 → second % 2 = 1 → ∀ slot,
    automorph_slot n_bits (word second) (automorph_slot n_bits (word first) slot) =
      automorph_slot n_bits (first * second % 2 ^ (n_bits + 1)).toNat slot
  substitutes : ∀ raw : RawParams, raw.Generated → raw.logN = n_bits → ∀ (k : Int) (inverse : Nat),
    k % 2 = 1 → word k * inverse % 2 ^ (n_bits + 1) = 1 → ∀ id, id < raw.L + raw.K →
      ∀ (a : Limb) (order : List Nat), (∀ j, j ∈ order ↔ j < raw.N) → ∀ old i, i < raw.N →
        ((SetupConstants raw).INTT id
            (Scatter.launch (automorph__ n_bits (word k) a) order old) i : ZMod (raw.prime id)) =
          reduced raw.N ((polynomial raw.N (residues (raw.prime id)
            ((SetupConstants raw).INTT id a))).comp (Polynomial.X ^ inverse)) i
  rotates : ∀ raw : RawParams, raw.Generated → raw.logN = n_bits → ∀ (idx : Int) (inverse : Nat),
    (inverse : ZMod (2 ^ (n_bits + 1))) = (five n_bits ^ idx : (ZMod (2 ^ (n_bits + 1)))ˣ) →
      ∀ (order : Nat → List Nat), (∀ id j, j ∈ order id ↔ j < raw.N) →
        ∀ (aux specialAux : Nat → Limb) (poly : RNSPoly) (id : Nat),
          id ≤ poly.level ∧ id < raw.L ∨ poly.modUp ∧ raw.L ≤ id ∧ id < raw.L + raw.K →
            ∀ i, i < raw.N →
              ((SetupConstants raw).INTT id
                  ((poly.automorph (SetupConstants raw) order aux specialAux idx
                    (raw.N / 2)).word raw id) i : ZMod (raw.prime id)) =
                reduced raw.N ((polynomial raw.N (residues (raw.prime id)
                  ((SetupConstants raw).INTT id (poly.word raw id)))).comp
                    (Polynomial.X ^ inverse)) i
  index : ∀ idx : Int, automorph_index_precomp idx (2 ^ n_bits) < 2 ^ (n_bits + 1) ∧
    (automorph_index_precomp idx (2 ^ n_bits) : ZMod (2 ^ (n_bits + 1))) =
      (five n_bits ^ (-idx) : (ZMod (2 ^ (n_bits + 1)))ˣ)
  adds : ∀ (i j : Int) slot,
    automorph_slot n_bits (automorph_index_precomp j (2 ^ n_bits))
        (automorph_slot n_bits (automorph_index_precomp i (2 ^ n_bits)) slot) =
      automorph_slot n_bits (automorph_index_precomp (i + j) (2 ^ n_bits)) slot
  compresses : ∀ m short, short + m = n_bits → ∀ k : Int, k % 2 = 1 → ∀ (a : Limb)
    (order shortOrder : List Nat), (∀ j, j ∈ order ↔ j < 2 ^ n_bits) →
      (∀ j, j ∈ shortOrder ↔ j < 2 ^ short) → ∀ old shortOld slot, slot < 2 ^ n_bits →
        Scatter.launch (automorph__ n_bits (word k) (expand m a)) order old slot =
          expand m (Scatter.launch (automorph__ short (k % 2 ^ (short + 1)).toNat a) shortOrder
            shortOld) slot

/-- The residue of a multiplier is the same number modulo its modulus. -/
theorem residue_cast (bits : Nat) (k : Int) :
    ((k % 2 ^ bits).toNat : ZMod (2 ^ bits)) = k := by
  have positive : (0 : Int) < 2 ^ bits := by positivity
  have natural : (((k % 2 ^ bits).toNat : Nat) : Int) = k % 2 ^ bits :=
    Int.toNat_of_nonneg (Int.emod_nonneg k positive.ne')
  have cast : ((((k % 2 ^ bits).toNat : Nat) : Int) : ZMod (2 ^ bits)) = k := by
    rw [natural]
    apply (ZMod.intCast_eq_intCast_iff _ _ _).mpr
    push_cast
    exact Int.mod_modEq k _
  rwa [Int.cast_natCast] at cast

theorem automorphism_law {n_bits : Nat} (narrow : n_bits ≤ 31) : AutomorphismLaw n_bits where
  permutes k odd := automorph_slot_bijOn narrow (word_odd odd)
  composes first second odd _ slot := by
    rw [automorph_slot_comp narrow (word_odd odd)]
    apply automorph_slot_congr narrow
    rw [Nat.cast_mul, word_cast (by omega), word_cast (by omega), residue_cast, Int.cast_mul]
  substitutes raw generated dimension k inverse odd cancels id inside a order covers old i bound := by
    subst dimension
    exact automorph_ring generated inside narrow (word_odd odd) cancels a covers old bound
  rotates raw generated dimension idx inverse power order covers aux specialAux poly id live i
      bound := by
    subst dimension
    have inside : id < raw.L + raw.K := by omega
    obtain ⟨old, moved⟩ := automorph_limb generated order aux specialAux idx poly live
    have cancels := automorph_index_cancels (show raw.logN ≤ 32 by omega) power
    rw [moved]
    exact automorph_ring generated inside narrow (automorph_index_odd idx _) cancels _ (covers id)
      old bound
  index idx := ⟨automorph_index_lt idx n_bits, automorph_index_power (by omega) idx⟩
  adds := automorph_index_add narrow
  compresses m short sum k odd a order shortOrder covers shortCovers old shortOld slot inside := by
    subst sum
    refine automorph_launch_expand narrow (word_odd odd) ?_ a covers shortCovers old shortOld inside
    rw [residue_cast, word_cast (by omega)]

/-- The chain of a ring of dimension 128 has limbs that turn with the variable. -/
theorem automorphism_law_small :
    AutomorphismLaw smallParams.logN ∧
      ((SetupConstants smallParams).INTT 2 (((smallPoly 0 true).automorph
          (SetupConstants smallParams) (fun _ => List.range smallParams.N) (fun _ _ => 0)
          (fun _ _ => 0) 1 (smallParams.N / 2)).word smallParams 2) 0 : ZMod (smallParams.prime 2)) =
        reduced smallParams.N ((polynomial smallParams.N (residues (smallParams.prime 2)
          ((SetupConstants smallParams).INTT 2 ((smallPoly 0 true).word smallParams 2)))).comp
            (Polynomial.X ^ 5)) 0 := by
  have law : AutomorphismLaw smallParams.logN := automorphism_law (by decide)
  exact ⟨law, law.rotates smallParams smallParams_generated rfl 1 5 (five_cast smallParams.logN) _
    (fun _ _ => List.mem_range) _ _ (smallPoly 0 true) 2 (Or.inr ⟨rfl, by decide, by decide⟩) 0
    (by decide)⟩

end Fideslib.KeySwitch
