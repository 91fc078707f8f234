/-
This file models the hoisted rotations with and without the fused kernel.
-/

import Fideslib.KeySwitch.Automorphism
import Fideslib.KeySwitch.DotKeySwitch
import Fideslib.KeySwitch.ModDown
import Fideslib.LinearTransform.Rotation

namespace Fideslib.KeySwitch

open Fideslib.Modular
open LinearTransform (normalyzeIndex)

section Kernels

variable (cc : Constants)

def addScaleB_ (primeid elem_c : Nat) (b c : Limb) (idx : Nat) : Nat :=
  let in_ := modmult .shoup (b idx) (cc.P primeid) (cc.primes primeid) (cc.P_shoup primeid)
  modadd in_ (c (bidx cc elem_c idx)) (cc.primes primeid)

def addScaleC_ (primeid elem_c : Nat) (b c : Limb) (idx : Nat) : Nat :=
  let in_ := modmult .shoup (c (bidx cc elem_c idx)) (cc.P primeid) (cc.primes primeid)
    (cc.P_shoup primeid)
  modadd in_ (b idx) (cc.primes primeid)

def scaleByP_ (primeid : Nat) (a : Limb) (idx : Nat) : Nat :=
  modmult .shoup (a idx) (cc.P primeid) (cc.primes primeid) (cc.P_shoup primeid)

/-- The first product starts the sum of the digits. -/
def accumulate (p : Nat) (start : Option Nat) (add : Nat → Nat) (num_d : Nat) : Nat :=
  (List.range num_d).foldl (fun aux i =>
    if i = 0 then (match start with
      | some in2 => modadd in2 (add i) p
      | none => add i)
    else modadd aux (add i) p) 0

variable {raw : RawParams} (digits : Digits raw)

/-- A thread of the fused kernel moves its words to the slot of the rotation. -/
def hoistedRotateDotKSK_2_ (table : PointerTable) (offset_c1 : Nat) (c0 : RNSPoly) (n : Nat)
    (indexes : Nat → Nat) (out : Nat → Nat) (num_d num_special : Nat) (c0_modup : Bool)
    (thread : Nat × Nat) : List (Cell × Nat) :=
  let blky := thread.1
  let idx := thread.2
  let primeid := rowPrime digits blky num_special
  let p := cc.primes primeid
  let pos_dec := blky - num_special
  let in1 i := readDigit digits (table <| offset_c1 + ·) 0 i primeid pos_dec idx
  let in2 :=
    if c0_modup ∨ primeid < cc.L then
      let in2 := if primeid < cc.L then c0.limb pos_dec idx else c0.special (primeid - cc.L) idx
      some (if ¬c0_modup ∧ primeid < cc.L then
        modmult .shoup in2 (cc.P primeid) p (cc.P_shoup primeid) else in2)
    else none
  (List.range n).flatMap fun j =>
    let offset := j * 3 * 2 * digits.dnum
    let key block i := readDigit digits (table <| offset + ·) block i primeid pos_dec idx
    let aux1 := accumulate p none (fun i => modmult .barrett (in1 i) (key 1 i) p 0) num_d
    let aux2 := accumulate p in2 (fun i => modmult .barrett (in1 i) (key 2 i) p 0) num_d
    let out_idx := automorph_slot cc.logN (indexes j) idx
    [(outputCell cc .c1 (out j) primeid pos_dec out_idx, aux1),
      (outputCell cc .c0 (out j) primeid pos_dec out_idx, aux2)]

/-- The table holds the pointers of all keys in front of those of the operand. -/
def hoistPointers (n num_d : Nat) (source : DigitPoly) (ksk : Nat → KeySwitchingKey) :
    List (Nat × (Nat → Limb)) :=
  let dnum := digits.dnum
  ((List.range n).flatMap fun k => (List.range num_d).flatMap fun i =>
    [(k * dnum * 6 + i + dnum, (ksk k).a.DIGITlimb i),
      (k * dnum * 6 + i + 2 * dnum, (ksk k).b.DIGITlimb i),
      (k * dnum * 6 + i + 4 * dnum, (ksk k).a.limb),
      (k * dnum * 6 + i + 5 * dnum, (ksk k).b.limb)]) ++
  (List.range num_d).flatMap fun i =>
    [(n * dnum * 6 + i, source.DIGITlimb i), (n * dnum * 6 + i + 3 * dnum, source.limb)]

end Kernels

namespace RNSPoly

variable (cc : Constants)

/-- This sum is written to a third polynomial. -/
def addFrom (slots_b : Nat) (self a b : RNSPoly) : Option RNSPoly :=
  let ext_a := a.modUp
  let ext_b := b.modUp
  if self.level ≤ a.level ∧ self.level ≤ b.level ∧ (ext_a ∨ ext_b → self.specialLimbs = cc.K) ∧
      (ext_b ∧ ¬ext_a → slots_b * 2 = cc.N) then
    some { self with
      limb := onLimbs (self.level + 1) (fun i => launch (threads cc)
        (if !ext_a && ext_b then addScaleB_ cc i (2 * slots_b) (a.limb i) (b.limb i)
        else if !ext_b && ext_a then addScaleC_ cc i (2 * slots_b) (a.limb i) (b.limb i)
        else add_ cc i (2 * slots_b) (a.limb i) (b.limb i)) (self.limb i)) self.limb
      special := if ext_a || ext_b then
          onLimbs cc.K (fun k => launch (threads cc)
            (if !ext_a && ext_b then b.special k
            else if !ext_b && ext_a then a.special k
            else add_ cc (cc.L + k) (2 * slots_b) (a.special k) (b.special k)) (self.special k))
            self.special
        else self.special
      modUp := ext_a || ext_b }
  else none

/-- The limbs of the operand that are in use are copied. -/
def copy (self poly : RNSPoly) : RNSPoly :=
  let grown := if poly.modUp then self.generateSpecialLimbs cc else self
  { grown with
    level := poly.level
    limb := onLimbs (poly.level + 1) poly.limb self.limb
    special := if poly.modUp then onLimbs cc.K poly.special self.special else self.special
    modUp := poly.modUp }

/-- A regular polynomial becomes its multiple by the special primes. -/
def extend (self : RNSPoly) : RNSPoly :=
  let grown := self.generateSpecialLimbs cc
  if self.modUp then grown
  else { grown with
    limb := onLimbs (self.level + 1) (fun i => launch (threads cc) (scaleByP_ cc i (self.limb i))
      (self.limb i)) self.limb
    special := fun _ _ => 0
    modUp := true }

end RNSPoly

structure SlottedCiphertext where
  c0 : RNSPoly
  c1 : RNSPoly
  slots : Nat

/-- The keys of a context are found by their rotation. -/
def GetRotationKey (rot_keys : Nat → Option KeySwitchingKey) (N : Nat) (index : Int) (slots : Nat) :
    Option (KeySwitchingKey × Nat) :=
  if index = 2 * N - 1 then (rot_keys index.toNat).map (·, index.toNat)
  else
    let half : Int := N / 2
    let reduced := index.tmod half
    let index := if reduced < 0 then reduced + half else reduced
    let alternatives := if slots ≠ N / 2 then
        (List.range' 1 (N / 2 / slots - 1)).map fun (i : Nat) => (index + i * slots).tmod half
      else []
    ((index :: alternatives).find? fun index => (rot_keys index.toNat).isSome).bind fun index =>
      (rot_keys index.toNat).map (·, index.toNat)

/-- A run meets orders of its threads and old contents of its buffers. -/
structure Surroundings where
  fused : List (Nat × Nat)
  dot : Nat → List (Nat × Nat)
  move : Nat → Component → Nat → List Nat
  stale : PointerTable
  aux : Nat → Component → Nat → Limb
  specialAux : Nat → Component → Nat → Limb
  moddownAux : Nat → Component → Nat → Limb
  aux2 : RNSPoly

/-- This result is rotated with a key of the context. -/
structure Rotated where
  result : Nat
  ksk : KeySwitchingKey
  actual_index : Nat
deriving Inhabited

section Rotation

variable {raw : RawParams} (digits : Digits raw) (cc : Constants) (around : Surroundings)

/-- The conjugation keeps its index. -/
def hoistedRotationFused (rotated : List Rotated) (results : Nat → Component → RNSPoly)
    (source : DigitPoly) (src_c0 : RNSPoly) (level : Nat) : Nat → Component → RNSPoly :=
  let n := rotated.length
  let entry j := rotated.getD j default
  let indexes j :=
    if (entry j).actual_index = 2 * cc.N - 1 then 2 * cc.N - 1
    else automorph_index_precomp (entry j).actual_index cc.N
  let num_d := digits.num_d (level + 1)
  let table := Scatter.commit (hoistPointers digits n num_d source fun j => (entry j).ksk)
    around.stale
  let memory := Scatter.launch
    (hoistedRotateDotKSK_2_ cc digits table (n * digits.dnum * 6) src_c0 n indexes
      (fun j => (entry j).result) num_d digits.num_special src_c0.modUp) around.fused
    (store results)
  fun i component =>
    let poly := (results i component).load memory component i
    if i ∈ rotated.map Rotated.result then
      { poly.generateSpecialLimbs cc with modUp := true }
    else poly

/-- Both halves leave the extended basis. -/
def modDown (i : Nat) (result : Component → RNSPoly) : Option (Component → RNSPoly) := do
  let c0 ← (result .c0).moddown cc .shoup true false (around.moddownAux i .c0)
  let c1 ← (result .c1).moddown cc .shoup true false (around.moddownAux i .c1)
  some fun component =>
    match component with
    | .c0 => c0
    | .c1 => c1

/-- The steps work on one result after the other, which leaves the extended basis in between
unless it stays extended. -/
def rotateUnfused (ext : Bool) (i : Nat) (c0 : RNSPoly) (source : DigitPoly)
    (ksk : KeySwitchingKey) (actual_index : Nat) (result : Component → RNSPoly) :
    Option (Component → RNSPoly) := do
  let out := dotKSKInPlaceFrom digits cc (around.dot i) around.stale (result .c1) around.aux2 source
    ksk
  let lowered component (poly : RNSPoly) :=
    if ext then some poly else poly.moddown cc .shoup true false (around.moddownAux i component)
  let rotated component poly := RNSPoly.automorph cc (around.move i component)
    (around.aux i component) (around.specialAux i component) actual_index (cc.N / 2) poly
  let c1 ← lowered .c1 out.1
  let aux0 ← lowered .c0 out.2
  let sum ← (result .c0).addFrom cc (cc.N / 2) c0 aux0
  some fun component =>
    match component with
    | .c0 => rotated .c0 sum
    | .c1 => rotated .c1 c1

variable (rot_keys : Nat → Option KeySwitchingKey)

/-- The results of trivial rotations are copies in the extended basis. -/
def copyExtended (self : SlottedCiphertext) (result : Component → RNSPoly) : Component → RNSPoly
  | .c0 => ((result .c0).copy cc self.c0).extend cc
  | .c1 => ((result .c1).copy cc self.c1).extend cc

/-- The results of trivial rotations are extended on request. -/
def copyResult (ext : Bool) (self : SlottedCiphertext) (result : Component → RNSPoly) :
    Component → RNSPoly :=
  if ext then copyExtended cc self result
  else fun component =>
    match component with
    | .c0 => (result .c0).copy cc self.c0
    | .c1 => (result .c1).copy cc self.c1

/-- The results take the level of the operand and own special limbs. -/
def prepare (level : Nat) (results : Nat → Component → RNSPoly) (i : Nat) (component : Component) :
    RNSPoly :=
  { (results i component).generateSpecialLimbs cc with level := level }

/-- The results take the level of the operand, and they own special limbs on request. -/
def grow (ext : Bool) (level : Nat) (results : Nat → Component → RNSPoly) (i : Nat)
    (component : Component) : RNSPoly :=
  if ext then prepare cc level results i component
  else { results i component with level := level }

theorem grow_extended : grow cc true = prepare cc := by
  funext level results i component
  exact if_pos rfl

/-- The loop over the results takes the steps for each proper index. -/
def rotateEach (ext : Bool) (self : SlottedCiphertext) (source : DigitPoly)
    (results : Nat → Component → RNSPoly) : Int × Nat → Option (Component → RNSPoly)
  | (index, i) =>
      if index = 0 then some (copyResult cc ext self (results i))
      else (GetRotationKey rot_keys cc.N index self.slots).bind fun (ksk, actual_index) =>
        rotateUnfused digits cc around ext i self.c0 source ksk actual_index (results i)

/-- The loop before the fused launch collects the keys. -/
def collectKey (self : SlottedCiphertext) : Int × Nat → Option Rotated
  | (index, i) =>
      (GetRotationKey rot_keys cc.N index self.slots).map fun (ksk, actual_index) =>
        ⟨i, ksk, actual_index⟩

/-- The fused rotations leave the extended basis at the end. -/
def rotate_hoisted (ext hoistRotateFused : Bool) (self : SlottedCiphertext)
    (digitLimbs : Nat → Nat → Limb) (indexes_ : List Int) (results : Nat → Component → RNSPoly) :
    Option (List (Component → RNSPoly)) :=
  let indexes := indexes_.map fun i => normalyzeIndex i self.slots cc.N
  let grown := grow cc ext self.c0.level results
  let source : DigitPoly := ⟨self.c1.limb, digitLimbs⟩
  if ¬hoistRotateFused then
    indexes.zipIdx.mapM (rotateEach digits cc around rot_keys ext self source grown)
  else
    let proper := indexes.zipIdx.filter fun item => item.1 ≠ 0
    (proper.mapM (collectKey cc rot_keys self)).bind fun rotated =>
      let copied i component :=
        if indexes.getD i 0 = 0 then copyResult cc ext self (grown i) component
        else grown i component
      let fused := hoistedRotationFused digits cc around rotated copied source self.c0 self.c1.level
      indexes.zipIdx.mapM fun (index, i) =>
        if index ≠ 0 ∧ ext = false then modDown cc around i (fused i) else some (fused i)

end Rotation

end Fideslib.KeySwitch
