/-
This file models the transforms of single limbs and the polynomials over all primes.
-/

import Fideslib.KeySwitch.Constants
import Fideslib.Library.NegacyclicTransform
import Fideslib.Kernels.Elementwise

namespace Fideslib.KeySwitch

open Fideslib.Modular

/-- A limb has one word for each coefficient or for each evaluation point. -/
abbrev Limb := Nat → Nat

/-- The limb is read as residues of its prime. -/
def residues (p : Nat) (x : Limb) (i : Nat) : ZMod p := x i

namespace Constants

variable (cc : Constants)

def NTT (id : Nat) (x : Limb) (i : Nat) : Nat :=
  (NegacyclicTransform.forward (cc.root id : ZMod (cc.primes id)) (cc.logN - 1)
    (residues (cc.primes id) x) i).val

def INTT (id : Nat) (x : Limb) (i : Nat) : Nat :=
  (NegacyclicTransform.backward (cc.inv_root id : ZMod (cc.primes id)) (cc.N_inv id) (cc.logN - 1)
    (residues (cc.primes id) x) i).val

variable {cc} {id : Nat} (positive : 0 < cc.primes id)

include positive

theorem NTT_lt (x : Limb) (i : Nat) : cc.NTT id x i < cc.primes id := by
  have nonzero : NeZero (cc.primes id) := ⟨positive.ne'⟩
  exact ZMod.val_lt _

theorem INTT_lt (x : Limb) (i : Nat) : cc.INTT id x i < cc.primes id := by
  have nonzero : NeZero (cc.primes id) := ⟨positive.ne'⟩
  exact ZMod.val_lt _

theorem residues_NTT (x : Limb) :
    residues (cc.primes id) (cc.NTT id x) =
      NegacyclicTransform.forward (cc.root id : ZMod (cc.primes id)) (cc.logN - 1)
        (residues (cc.primes id) x) := by
  have nonzero : NeZero (cc.primes id) := ⟨positive.ne'⟩
  funext i
  exact ZMod.natCast_zmod_val _

theorem residues_INTT (x : Limb) :
    residues (cc.primes id) (cc.INTT id x) =
      NegacyclicTransform.backward (cc.inv_root id : ZMod (cc.primes id)) (cc.N_inv id)
        (cc.logN - 1) (residues (cc.primes id) x) := by
  have nonzero : NeZero (cc.primes id) := ⟨positive.ne'⟩
  funext i
  exact ZMod.natCast_zmod_val _

end Constants

namespace RawParams.Generated

variable {raw : RawParams} (generated : raw.Generated) {id : Nat} (inside : id < raw.L + raw.K)

include generated inside

/-- The root of a prime and its inverse cancel. -/
theorem root_inverse :
    ((Constants.SetupConstants raw).inv_root id : ZMod (raw.prime id)) * raw.root id = 1 := by
  have prime := generated.fact_prime inside
  have half := congrArg (Nat.cast : Nat → ZMod (raw.prime id)) (generated.root id inside)
  have large := (generated.prime id inside).one_lt
  have first : raw.N ≠ 0 := (Nat.two_pow_pos raw.logN).ne'
  apply @modinv_cast (raw.prime id) prime
  intro zero
  rw [ZMod.natCast_mod, Nat.cast_pow, show ((raw.root id : Nat) : ZMod (raw.prime id)) = 0 from zero,
    zero_pow first, Nat.cast_sub large.le, ZMod.natCast_self, Nat.cast_one, zero_sub] at half
  exact one_ne_zero (neg_eq_zero.mp half.symm)

/-- The dimension is a power of two, so it is invertible modulo an odd prime. -/
theorem N_inverse : ((Constants.SetupConstants raw).N_inv id : ZMod (raw.prime id)) * raw.N = 1 := by
  have prime := generated.fact_prime inside
  apply @modinv_cast (raw.prime id) prime
  intro zero
  have divides := (ZMod.natCast_eq_zero_iff _ _).mp zero
  have two := (generated.prime id inside).dvd_of_dvd_pow divides
  exact generated.odd id inside ((Nat.prime_dvd_prime_iff_eq (generated.prime id inside)
    Nat.prime_two).mp two)

omit inside in
theorem dimension : 2 ^ (raw.logN - 1 + 1) = raw.N := by
  have ring := generated.ring
  rw [RawParams.N, Nat.sub_add_cancel (by omega)]

theorem count_inverse : ((Constants.SetupConstants raw).N_inv id : ZMod (raw.prime id)) *
    2 ^ (raw.logN - 1 + 1) = 1 := by
  have whole := generated.N_inverse inside
  rw [← generated.dimension] at whole
  push_cast at whole
  exact whole

omit inside in
/-- The transform of a limb reads the residues of its coefficients. -/
theorem NTT_congr {x y : Limb}
    (same : ∀ i, i < raw.N → (x i : ZMod (raw.prime id)) = (y i : ZMod (raw.prime id))) {i : Nat}
    (bound : i < raw.N) :
    (Constants.SetupConstants raw).NTT id x i = (Constants.SetupConstants raw).NTT id y i := by
  apply congrArg ZMod.val
  apply NegacyclicTransform.forward_congr
  · intro position below
    exact same position (lt_of_lt_of_eq below generated.dimension)
  · exact lt_of_lt_of_eq bound generated.dimension.symm

omit inside in
theorem INTT_congr {x y : Limb} (same : ∀ i, i < raw.N → x i = y i) {i : Nat} (bound : i < raw.N) :
    (Constants.SetupConstants raw).INTT id x i = (Constants.SetupConstants raw).INTT id y i := by
  apply congrArg ZMod.val
  apply NegacyclicTransform.backward_congr
  · intro position below
    exact congrArg Nat.cast (same position (lt_of_lt_of_eq below generated.dimension))
  · exact lt_of_lt_of_eq bound generated.dimension.symm

theorem INTT_NTT {x : Limb} (canonical : ∀ i, i < raw.N → x i < raw.prime id) {i : Nat}
    (bound : i < raw.N) :
    (Constants.SetupConstants raw).INTT id ((Constants.SetupConstants raw).NTT id x) i = x i := by
  have positive := (generated.modulus inside).pos
  apply word_ext (Constants.INTT_lt positive _ i) (canonical i bound)
  change residues ((Constants.SetupConstants raw).primes id) _ i = _
  rw [Constants.residues_INTT positive, Constants.residues_NTT positive]
  exact congrFun (NegacyclicTransform.backward_forward (generated.root_inverse inside)
    (generated.count_inverse inside) _) i

end RawParams.Generated

end Fideslib.KeySwitch

namespace Fideslib.KeySwitch

open Fideslib.Modular

/-- The special limbs are absent until an operation generates them. -/
structure RNSPoly where
  level : Nat
  limb : Nat → Limb
  special : Nat → Limb
  specialLimbs : Nat
  modUp : Bool

/-- A launch writes the words of its threads. -/
def launch (threads : Nat) (value old : Limb) : Limb := fun idx =>
  if idx < threads then value idx else old idx

theorem launch_inside {threads idx : Nat} (value old : Limb) (inside : idx < threads) :
    launch threads value old idx = value idx := if_pos inside

/-- The kernels run on the first limbs of a list of pointers. -/
def onLimbs (count : Nat) (value old : Nat → Limb) (i : Nat) : Limb :=
  if i < count then value i else old i

theorem onLimbs_inside {count i : Nat} (value old : Nat → Limb) (inside : i < count) :
    onLimbs count value old i = value i := if_pos inside

section Kernels

variable (cc : Constants)

/-- An elementwise launch has a thread for each coefficient. -/
def threads : Nat := Kernels.GetBlockDimX cc.N * Kernels.GetGridDimX cc.N

/-- A compressed operand has one word for each stride. -/
def bidx (elem_b idx : Nat) : Nat := idx >>> Kernels.logstride (threads cc) elem_b

def add_ (primeid elem_b : Nat) (a b : Limb) (idx : Nat) : Nat :=
  modadd (a idx) (b (bidx cc elem_b idx)) (cc.primes primeid)

def add_scale_p_b_ (primeid elem_b : Nat) (a b : Limb) (idx : Nat) : Nat :=
  let tmp := modmult .shoup (b (bidx cc elem_b idx)) (cc.P primeid) (cc.primes primeid)
    (cc.P_shoup primeid)
  modadd (a idx) tmp (cc.primes primeid)

def add_scale_p_a_ (primeid elem_b : Nat) (a b : Limb) (idx : Nat) : Nat :=
  let tmp := modmult .shoup (a idx) (cc.P primeid) (cc.primes primeid) (cc.P_shoup primeid)
  modadd (b (bidx cc elem_b idx)) tmp (cc.primes primeid)

end Kernels

namespace RNSPoly

variable (cc : Constants)

def generateSpecialLimbs (self : RNSPoly) : RNSPoly :=
  if self.specialLimbs = 0 then { self with specialLimbs := cc.K } else self

/-- The operand that is not extended is scaled while it is added. -/
def addLimbs (exta extb : Bool) (slots : Nat) (self p : RNSPoly) (i : Nat) : Limb :=
  launch (threads cc)
    (if exta = extb then add_ cc i (2 * slots) (self.limb i) (p.limb i)
    else if exta then add_scale_p_b_ cc i (2 * slots) (self.limb i) (p.limb i)
    else add_scale_p_a_ cc i (2 * slots) (self.limb i) (p.limb i))
    (self.limb i)

def addSpecial (exta extb : Bool) (slots : Nat) (self p : RNSPoly) (k : Nat) : Limb :=
  if exta && extb then
    launch (threads cc) (add_ cc (cc.L + k) (2 * slots) (self.special k) (p.special k))
      (self.special k)
  else if extb then launch (threads cc) (p.special k) (self.special k)
  else self.special k

/-- The sum takes the special limbs of the operand that is extended. -/
def add (slots : Nat) (self p : RNSPoly) : Option RNSPoly :=
  let exta := self.modUp
  let extb := p.modUp
  -- The copy of the special limbs asserts that the other operand is not compressed.
  if self.level ≤ p.level ∧ (extb ∧ ¬exta → 2 * slots = cc.N) then
    let grown := if extb && !exta then self.generateSpecialLimbs cc else self
    some { grown with
      limb := onLimbs (grown.level + 1) (grown.addLimbs cc exta extb slots p) grown.limb
      special := onLimbs cc.K (grown.addSpecial cc exta extb slots p) grown.special
      modUp := exta || extb }
  else none

end RNSPoly

end Fideslib.KeySwitch
