/-
This file models polynomials with special limbs and decides where they form the larger ring.
-/

import Fideslib.CKKS.Operations

namespace Fideslib.CKKS

variable {F : Type}

/-- The special primes follow the primes of the chain. -/
def specialId (cc : ContextData F) {K : Nat} (j : Fin K) : Nat := (cc.L + 1 + j).toNat

/-- The product of the special primes is invertible modulo each prime of the chain. -/
structure SpecialBasis (cc : ContextData F) where
  K : Nat
  PInvModq : (id : Nat) → ZMod (cc.prime id)
  inverse : ∀ id : Nat, (id : Int) ≤ cc.L →
    PInvModq id * ((∏ j : Fin K, cc.prime (specialId cc j) : Nat) : ZMod (cc.prime id)) = 1

namespace SpecialBasis

variable {cc : ContextData F} (basis : SpecialBasis cc)

/-- The table of the device inverts the table it receives. -/
def P (id : Nat) : ZMod (cc.prime id) := (basis.PInvModq id)⁻¹

end SpecialBasis

/-- The special limbs hold stale values as long as the flag is not set. -/
structure ExtendedPoly {cc : ContextData F} (basis : SpecialBasis cc) extends RNSPoly cc where
  special : (j : Fin basis.K) → Fin cc.N → ZMod (cc.prime (specialId cc j))
  modUp : Bool

namespace ExtendedPoly

variable {cc : ContextData F} {basis : SpecialBasis cc}

/-- A polynomial above the chain keeps its top tower in a special limb. -/
def limbLevel (cc : ContextData F) (level : Int) : Int :=
  if level = cc.L + 1 then
    level - 1 - (if cc.rescaleTechnique = .flexibleAutoExt then 1 else 0)
  else level

theorem limbLevel_eq {level : Int} (chain : level ≤ cc.L) : limbLevel cc level = level := by
  rw [limbLevel, if_neg (by omega)]

/-- The kernels write each regular limb of the polynomial. -/
def writeLimbs (self : ExtendedPoly basis)
    (value : (id : Nat) → Fin cc.N → ZMod (cc.prime id)) : ExtendedPoly basis :=
  { self with
    limb := fun id => if (id : Int) ≤ limbLevel cc self.level then value id else self.limb id }

def SetModUp (self : ExtendedPoly basis) (newValue : Bool) : ExtendedPoly basis :=
  { self with modUp := newValue }

/-- The regular operand is scaled, and a regular destination takes the special limbs over. -/
def add (self p : ExtendedPoly basis) : ExtendedPoly basis :=
  let exta := self.modUp
  let extb := p.modUp
  let sums := self.writeLimbs fun id =>
    if exta = extb then self.limb id + p.limb id
    else if exta then self.limb id + basis.P id • p.limb id
    else p.limb id + basis.P id • self.limb id
  let special :=
    if exta && extb then self.special + p.special
    else if extb then p.special
    else self.special
  { sums with special }.SetModUp (exta || extb)

/-- The sum of two polynomials replaces the limbs of a third one. -/
def addInto (self a b : ExtendedPoly basis) : ExtendedPoly basis :=
  let ext_a := a.modUp
  let ext_b := b.modUp
  let sums := self.writeLimbs fun id =>
    if !ext_a && ext_b then basis.P id • a.limb id + b.limb id
    else if !ext_b && ext_a then basis.P id • b.limb id + a.limb id
    else a.limb id + b.limb id
  let special :=
    if ext_a || ext_b then
      if !ext_a && ext_b then b.special
      else if !ext_b && ext_a then a.special
      else a.special + b.special
    else self.special
  { sums with special }.SetModUp (ext_a || ext_b)

/-- This reads neither flag, and it leaves the special limbs alone. -/
def sub (self p : ExtendedPoly basis) : ExtendedPoly basis :=
  self.writeLimbs fun id => self.limb id - p.limb id

/-- The first special limb is multiplied only where it is the top tower. -/
def multScalar (self : ExtendedPoly basis) (vector : (id : Nat) → ZMod (cc.prime id)) :
    ExtendedPoly basis :=
  let products := self.writeLimbs fun id => vector id • self.limb id
  { products with
    special := fun j =>
      if self.level = cc.L + 1 ∧ j.val = 0 then vector (specialId cc j) • self.special j
      else self.special j }

/-- A ciphertext negates each polynomial with these scalars. -/
def negOne (id : Nat) : ZMod (cc.prime id) := ((cc.prime id - 1 : Nat) : ZMod (cc.prime id))

def negate (self : ExtendedPoly basis) : ExtendedPoly basis := self.multScalar negOne

theorem negOne_eq (id : Nat) : (negOne id : ZMod (cc.prime id)) = -1 := by
  have positive : 1 ≤ cc.prime id := Nat.pos_of_ne_zero (NeZero.ne _)
  rw [negOne, Nat.cast_sub positive, ZMod.natCast_self, Nat.cast_one, zero_sub]

end ExtendedPoly
end Fideslib.CKKS

namespace Fideslib.CKKS

variable {F : Type} {cc : ContextData F} {basis : SpecialBasis cc}

namespace ExtendedPoly

/-- These are the residues of the product `P` times the value that the polynomial stands for. -/
def lifted (self : ExtendedPoly basis) (id : Nat) : Fin cc.N → ZMod (cc.prime id) :=
  if self.modUp then self.limb id else basis.P id • self.limb id

def liftedSpecial (self : ExtendedPoly basis) (j : Fin basis.K) :
    Fin cc.N → ZMod (cc.prime (specialId cc j)) :=
  if self.modUp then self.special j else 0

theorem lifted_of_regular {self : ExtendedPoly basis} (regular : self.modUp = false) (id : Nat) :
    self.lifted id = basis.P id • self.limb id := by
  rw [lifted, regular, if_neg Bool.false_ne_true]

theorem lifted_of_extended {self : ExtendedPoly basis} (extended : self.modUp = true) (id : Nat) :
    self.lifted id = self.limb id := by
  rw [lifted, if_pos extended]

theorem liftedSpecial_of_regular {self : ExtendedPoly basis} (regular : self.modUp = false) :
    self.liftedSpecial = 0 := by
  funext j
  rw [liftedSpecial, regular, if_neg Bool.false_ne_true]
  rfl

theorem liftedSpecial_of_extended {self : ExtendedPoly basis} (extended : self.modUp = true) :
    self.liftedSpecial = self.special := by
  funext j
  rw [liftedSpecial, if_pos extended]

/-- The result has this level and this flag, and it stands for these residues. -/
structure Represents (result : ExtendedPoly basis) (level : Int) (modUp : Bool)
    (regular : (id : Nat) → Fin cc.N → ZMod (cc.prime id))
    (special : (j : Fin basis.K) → Fin cc.N → ZMod (cc.prime (specialId cc j))) : Prop where
  sameLevel : result.level = level
  sameFlag : result.modUp = modUp
  limbs : ∀ id : Nat, (id : Int) ≤ level → result.lifted id = regular id
  specialLimbs : result.liftedSpecial = special

/-- Two polynomials with one level and one flag have the same limbs. -/
def Agrees (result other : ExtendedPoly basis) : Prop :=
  result.Represents other.level other.modUp other.lifted other.liftedSpecial

def IsSum (result a b : ExtendedPoly basis) : Prop :=
  result.Represents result.level (a.modUp || b.modUp) (a.lifted + b.lifted)
    (a.liftedSpecial + b.liftedSpecial)

def IsDifference (result a b : ExtendedPoly basis) : Prop :=
  result.Represents a.level (a.modUp || b.modUp) (a.lifted - b.lifted)
    (a.liftedSpecial - b.liftedSpecial)

/-- The scalar is given by its residue modulo each prime. -/
def IsMultiple (result a : ExtendedPoly basis) (vector : (id : Nat) → ZMod (cc.prime id)) :
    Prop :=
  result.Represents a.level a.modUp (fun id => vector id • a.lifted id)
    (fun j => vector (specialId cc j) • a.liftedSpecial j)

def IsNegation (result a : ExtendedPoly basis) : Prop :=
  result.Represents a.level a.modUp (-a.lifted) (-a.liftedSpecial)

variable {self p a b : ExtendedPoly basis}

theorem writeLimbs_limb {value : (id : Nat) → Fin cc.N → ZMod (cc.prime id)} {id : Nat}
    (chain : self.level ≤ cc.L) (inside : (id : Int) ≤ self.level) :
    (self.writeLimbs value).limb id = value id := by
  simp only [writeLimbs, limbLevel_eq chain, inside, if_true]

theorem add_isSum (chain : self.level ≤ cc.L) : (self.add p).IsSum self p where
  sameLevel := rfl
  sameFlag := rfl
  limbs := by
    intro id inside
    have limb := @writeLimbs_limb _ _ _ self (fun id =>
      if self.modUp = p.modUp then self.limb id + p.limb id
      else if self.modUp then self.limb id + basis.P id • p.limb id
      else p.limb id + basis.P id • self.limb id) id chain inside
    change (self.add p).limb id = _ at limb
    change (if self.modUp || p.modUp then (self.add p).limb id
      else basis.P id • (self.add p).limb id) = self.lifted id + p.lifted id
    rw [limb, lifted, lifted]
    cases self.modUp <;> cases p.modUp <;> simp [add_comm]
  specialLimbs := by
    funext j
    cases first : self.modUp <;> cases second : p.modUp <;>
      simp [liftedSpecial, add, SetModUp, first, second]

theorem addInto_isSum (chain : self.level ≤ cc.L) : (self.addInto a b).IsSum a b where
  sameLevel := rfl
  sameFlag := rfl
  limbs := by
    intro id inside
    have limb := @writeLimbs_limb _ _ _ self (fun id =>
      if !a.modUp && b.modUp then basis.P id • a.limb id + b.limb id
      else if !b.modUp && a.modUp then basis.P id • b.limb id + a.limb id
      else a.limb id + b.limb id) id chain inside
    change (self.addInto a b).limb id = _ at limb
    change (if a.modUp || b.modUp then (self.addInto a b).limb id
      else basis.P id • (self.addInto a b).limb id) = a.lifted id + b.lifted id
    rw [limb, lifted, lifted]
    cases a.modUp <;> cases b.modUp <;> simp [add_comm]
  specialLimbs := by
    funext j
    cases first : a.modUp <;> cases second : b.modUp <;>
      simp [liftedSpecial, addInto, SetModUp, first, second]

theorem multScalar_limb {vector : (id : Nat) → ZMod (cc.prime id)} {id : Nat}
    (chain : self.level ≤ cc.L) (inside : (id : Int) ≤ self.level) :
    (self.multScalar vector).limb id = vector id • self.limb id :=
  writeLimbs_limb chain inside

/-- No special limb is multiplied at a level of the chain. -/
theorem multScalar_special {vector : (id : Nat) → ZMod (cc.prime id)}
    (chain : self.level ≤ cc.L) : (self.multScalar vector).special = self.special := by
  funext j
  have below : ¬(self.level = cc.L + 1 ∧ j.val = 0) := by omega
  simp only [multScalar, below, if_false]

theorem multScalar_isMultiple_iff {vector : (id : Nat) → ZMod (cc.prime id)}
    (chain : self.level ≤ cc.L) :
    (self.multScalar vector).IsMultiple self vector ↔
      (self.modUp → ∀ j, vector (specialId cc j) • self.special j = self.special j) := by
  have flag : (self.multScalar vector).modUp = self.modUp := rfl
  have special : (self.multScalar vector).liftedSpecial = self.liftedSpecial := by
    funext j
    rw [liftedSpecial, multScalar_special chain, flag, liftedSpecial]
  constructor
  · intro multiple extended j
    have whole := congrFun multiple.specialLimbs j
    rw [special, liftedSpecial_of_extended extended] at whole
    exact whole.symm
  · intro fixed
    refine ⟨rfl, rfl, ?_, ?_⟩
    · intro id inside
      rw [lifted, multScalar_limb chain inside, flag, lifted]
      cases self.modUp
      · exact smul_comm _ _ _
      · rfl
    · rw [special]
      funext j
      cases extended : self.modUp
      · rw [liftedSpecial_of_regular extended, Pi.zero_apply, smul_zero]
      · rw [liftedSpecial_of_extended extended, fixed extended j]

/-- The negation is the multiple by minus one. -/
theorem isNegation_iff_isMultiple {result : ExtendedPoly basis} :
    result.IsNegation self ↔ result.IsMultiple self negOne := by
  have regular : -self.lifted = fun id => (negOne id : ZMod (cc.prime id)) • self.lifted id := by
    funext id k
    simp [negOne_eq]
  have special : -self.liftedSpecial =
      fun j => (negOne (specialId cc j) : ZMod (cc.prime (specialId cc j))) •
        self.liftedSpecial j := by
    funext j k
    simp [negOne_eq]
  rw [IsNegation, IsMultiple, regular, special]

theorem negate_isNegation_iff (chain : self.level ≤ cc.L) :
    self.negate.IsNegation self ↔ (self.modUp → -self.special = self.special) := by
  rw [isNegation_iff_isMultiple, negate, multScalar_isMultiple_iff chain]
  have minus : ∀ j, (negOne (specialId cc j) : ZMod (cc.prime (specialId cc j))) •
      self.special j = -self.special j := by
    intro j
    rw [negOne_eq, neg_smul, one_smul]
  simp only [minus, funext_iff, Pi.neg_apply]

/-- The difference is right for these pairs of operands. -/
def SubFaithful (self p : ExtendedPoly basis) : Prop :=
  match self.modUp, p.modUp with
  | false, false => True
  | true, false => ∀ id : Nat, (id : Int) ≤ self.level → basis.P id • p.limb id = p.limb id
  | false, true => False
  | true, true => p.special = 0

theorem sub_limb {id : Nat} (chain : self.level ≤ cc.L) (inside : (id : Int) ≤ self.level) :
    (self.sub p).limb id = self.limb id - p.limb id :=
  writeLimbs_limb chain inside

theorem sub_liftedSpecial : (self.sub p).liftedSpecial = self.liftedSpecial := rfl

theorem sub_isDifference_iff (chain : self.level ≤ cc.L) :
    (self.sub p).IsDifference self p ↔ self.SubFaithful p := by
  have flag : (self.sub p).modUp = self.modUp := rfl
  unfold SubFaithful
  cases first : self.modUp <;> cases second : p.modUp
  · refine iff_true_intro ⟨rfl, ?_, ?_, ?_⟩
    · rw [flag, first, second]
      rfl
    · intro id inside
      rw [lifted_of_regular (flag.trans first), sub_limb chain inside, smul_sub, Pi.sub_apply,
        lifted_of_regular first, lifted_of_regular second]
    · rw [sub_liftedSpecial, liftedSpecial_of_regular second, sub_zero]
  · refine iff_false_intro fun difference => ?_
    have same := difference.sameFlag
    rw [flag, first, second] at same
    cases same
  · constructor
    · intro difference id inside
      have whole := difference.limbs id inside
      rw [lifted_of_extended (flag.trans first), sub_limb chain inside, Pi.sub_apply,
        lifted_of_extended first, lifted_of_regular second] at whole
      exact (sub_right_inj.mp whole).symm
    · intro fixed
      refine ⟨rfl, ?_, ?_, ?_⟩
      · rw [flag, first, second]
        rfl
      · intro id inside
        rw [lifted_of_extended (flag.trans first), sub_limb chain inside, Pi.sub_apply,
          lifted_of_extended first, lifted_of_regular second, fixed id inside]
      · rw [sub_liftedSpecial, liftedSpecial_of_regular second, sub_zero]
  · constructor
    · intro difference
      have whole := difference.specialLimbs
      rw [sub_liftedSpecial, liftedSpecial_of_extended second] at whole
      exact sub_eq_self.mp whole.symm
    · intro zero
      refine ⟨rfl, ?_, ?_, ?_⟩
      · rw [flag, first, second]
        rfl
      · intro id inside
        rw [lifted_of_extended (flag.trans first), sub_limb chain inside, Pi.sub_apply,
          lifted_of_extended first, lifted_of_extended second]
      · rw [sub_liftedSpecial, liftedSpecial_of_extended second, zero, sub_zero]

theorem negate_lifted {id : Nat} (chain : self.level ≤ cc.L) (inside : (id : Int) ≤ self.level) :
    self.negate.lifted id = -self.lifted id := by
  have limb : self.negate.limb id = -self.limb id := by
    rw [negate, multScalar_limb chain inside, negOne_eq, neg_smul, one_smul]
  have flag : self.negate.modUp = self.modUp := rfl
  cases extended : self.modUp
  · rw [lifted_of_regular (flag.trans extended), lifted_of_regular extended, limb, smul_neg]
  · rw [lifted_of_extended (flag.trans extended), lifted_of_extended extended, limb]

theorem negate_liftedSpecial (chain : self.level ≤ cc.L) :
    self.negate.liftedSpecial = self.liftedSpecial := by
  funext j
  rw [liftedSpecial, negate, multScalar_special chain]
  rfl

theorem SubFaithful.liftedSpecial (faithful : self.SubFaithful p) : p.liftedSpecial = 0 := by
  unfold SubFaithful at faithful
  cases extended : p.modUp
  · exact liftedSpecial_of_regular extended
  · rw [extended] at faithful
    cases first : self.modUp
    · rw [first] at faithful
      exact faithful.elim
    · rw [first] at faithful
      rw [liftedSpecial_of_extended extended]
      exact faithful

/-- Where the difference is right, it is the sum with the negation. -/
theorem SubFaithful.agrees (faithful : self.SubFaithful p) (fewer : self.level ≤ p.level)
    (chain : p.level ≤ cc.L) : (self.sub p).Agrees (self.add p.negate) := by
  have difference := (sub_isDifference_iff (fewer.trans chain)).mpr faithful
  have sum := @add_isSum _ _ _ self p.negate (fewer.trans chain)
  refine ⟨rfl, difference.sameFlag.trans sum.sameFlag.symm, ?_, ?_⟩
  · intro id inside
    rw [difference.limbs id inside, sum.limbs id inside, Pi.sub_apply, Pi.add_apply,
      negate_lifted chain (inside.trans fewer), sub_eq_add_neg]
  · rw [difference.specialLimbs, sum.specialLimbs, negate_liftedSpecial chain,
      faithful.liftedSpecial, sub_zero, add_zero]

end ExtendedPoly

/-- The polynomials of a ciphertext whose operands were aligned beforehand. -/
structure ExtendedCiphertext {cc : ContextData F} (basis : SpecialBasis cc) where
  c0 : ExtendedPoly basis
  c1 : ExtendedPoly basis

namespace ExtendedCiphertext

def add (self b : ExtendedCiphertext basis) : ExtendedCiphertext basis :=
  ⟨self.c0.add b.c0, self.c1.add b.c1⟩

def sub (self b : ExtendedCiphertext basis) : ExtendedCiphertext basis :=
  ⟨self.c0.sub b.c0, self.c1.sub b.c1⟩

def multScalar (self : ExtendedCiphertext basis) (vector : (id : Nat) → ZMod (cc.prime id)) :
    ExtendedCiphertext basis :=
  ⟨self.c0.multScalar vector, self.c1.multScalar vector⟩

def negate (self : ExtendedCiphertext basis) : ExtendedCiphertext basis :=
  ⟨self.c0.negate, self.c1.negate⟩

end ExtendedCiphertext

/-- These are the operations on polynomials, and those on ciphertexts over them. -/
inductive ExtendedOperation (basis : SpecialBasis cc) where
  | polyAdd (self p : ExtendedPoly basis)
  | polyAddInto (self a b : ExtendedPoly basis)
  | polySub (self p : ExtendedPoly basis)
  | polyMultScalar (self : ExtendedPoly basis) (vector : (id : Nat) → ZMod (cc.prime id))
  | add (self b : ExtendedCiphertext basis)
  | sub (self b : ExtendedCiphertext basis)
  | multScalar (self : ExtendedCiphertext basis) (vector : (id : Nat) → ZMod (cc.prime id))
  | negate (self : ExtendedCiphertext basis)

namespace ExtendedOperation

/-- The code asserts that a second operand has no fewer limbs. -/
def Fewer (self p : ExtendedPoly basis) : Prop := self.level ≤ p.level ∧ p.level ≤ cc.L

/-- The operands are polynomials of the chain. -/
def Valid : ExtendedOperation basis → Prop
  | polyAdd self p => Fewer self p
  | polyAddInto self a b => Fewer self a ∧ Fewer self b
  | polySub self p => Fewer self p
  | polyMultScalar self _ => self.level ≤ cc.L
  | add self b => Fewer self.c0 b.c0 ∧ Fewer self.c1 b.c1
  | sub self b => Fewer self.c0 b.c0 ∧ Fewer self.c1 b.c1
  | multScalar self _ => self.c0.level ≤ cc.L ∧ self.c1.level ≤ cc.L
  | negate self => self.c0.level ≤ cc.L ∧ self.c1.level ≤ cc.L

/-- The subtraction of an operand is the addition of its negation. -/
def Subtracts (result self p negated : ExtendedPoly basis) : Prop :=
  result.IsDifference self p ∧ result.Agrees (self.add negated)

/-- The result is that of the ring modulo all primes, with the flag of its operands. -/
def Meets : ExtendedOperation basis → Prop
  | polyAdd self p => (self.add p).IsSum self p
  | polyAddInto self a b => (self.addInto a b).IsSum a b
  | polySub self p => Subtracts (self.sub p) self p p.negate
  | polyMultScalar self vector => (self.multScalar vector).IsMultiple self vector
  | add self b => (self.add b).c0.IsSum self.c0 b.c0 ∧ (self.add b).c1.IsSum self.c1 b.c1
  | sub self b =>
      Subtracts (self.sub b).c0 self.c0 b.c0 b.negate.c0 ∧
        Subtracts (self.sub b).c1 self.c1 b.c1 b.negate.c1
  | multScalar self vector =>
      (self.multScalar vector).c0.IsMultiple self.c0 vector ∧
        (self.multScalar vector).c1.IsMultiple self.c1 vector
  | negate self => self.negate.c0.IsNegation self.c0 ∧ self.negate.c1.IsNegation self.c1

/-- An extended polynomial keeps the special limbs that the multiplication leaves alone. -/
def FixesSpecial (self : ExtendedPoly basis) (vector : (id : Nat) → ZMod (cc.prime id)) : Prop :=
  self.modUp → ∀ j, vector (specialId cc j) • self.special j = self.special j

/-- This is the condition on the operands under which the result is right. -/
def Faithful : ExtendedOperation basis → Prop
  | polyAdd _ _ => True
  | polyAddInto _ _ _ => True
  | polySub self p => self.SubFaithful p
  | polyMultScalar self vector => FixesSpecial self vector
  | add _ _ => True
  | sub self b => self.c0.SubFaithful b.c0 ∧ self.c1.SubFaithful b.c1
  | multScalar self vector => FixesSpecial self.c0 vector ∧ FixesSpecial self.c1 vector
  | negate self =>
      (self.c0.modUp → -self.c0.special = self.c0.special) ∧
        (self.c1.modUp → -self.c1.special = self.c1.special)

theorem subtracts_iff {self p : ExtendedPoly basis} (fewer : Fewer self p) :
    Subtracts (self.sub p) self p p.negate ↔ self.SubFaithful p := by
  have chain := fewer.1.trans fewer.2
  constructor
  · intro subtracts
    exact (ExtendedPoly.sub_isDifference_iff chain).mp subtracts.1
  · intro faithful
    exact ⟨(ExtendedPoly.sub_isDifference_iff chain).mpr faithful,
      faithful.agrees fewer.1 fewer.2⟩

end ExtendedOperation

/-- The chain of this context is the prime three, and five is the only special prime. -/
def extendedData : ContextData Nat where
  rescaleTechnique := .fixedManual
  L := 0
  N := 1
  prime := fun id => if id = 0 then 3 else 5
  prime_odd := by
    intro id
    split_ifs <;> rfl
  point := fun _ _ => 1
  specialPrimeFactor := 5
  ScalingFactorReal := fun _ => 3
  ScalingFactorRealBig := fun _ => 9
  ModReduceFactor := fun _ => 3
  ElemForEvalMult := fun _ _ _ => Nat.cast 3
  asserts := true

def extendedBasis : SpecialBasis extendedData where
  K := 1
  PInvModq := fun _ => 2
  inverse := by
    intro id inside
    have first : id = 0 := by
      change (id : Int) ≤ 0 at inside
      omega
    subst first
    rfl

/-- This polynomial is extended, and each of its residues is one. -/
def extendedOne : ExtendedPoly extendedBasis where
  level := 0
  limb := fun _ _ => 1
  special := fun _ _ => 1
  modUp := true

end Fideslib.CKKS
