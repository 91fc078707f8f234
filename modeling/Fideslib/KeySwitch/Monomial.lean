/-
This file models the product of a ciphertext with a cached monomial.
-/

import Fideslib.KeySwitch.Automorphism
import Fideslib.KeySwitch.ModDownContract

namespace Fideslib.KeySwitch

open Constants (SetupConstants)
open Fideslib.Modular
open NegacyclicRing
open BitReversal

/-- A ciphertext has two polynomials. -/
structure Ciphertext where
  c0 : RNSPoly
  c1 : RNSPoly

def Mult_ (cc : Constants) (primeid elem_l2 : Nat) (l1 l2 : Limb) (idx : Nat) : Nat :=
  modmult .barrett (l1 idx) (l2 (bidx cc elem_l2 idx)) (cc.primes primeid) 0

def RNSPoly.multElement (cc : Constants) (slots : Nat) (self poly : RNSPoly) : RNSPoly :=
  { self with
    limb := onLimbs (self.level + 1) (fun i =>
      launch (threads cc) (Mult_ cc i (2 * slots) (self.limb i) (poly.limb i)) (self.limb i))
      self.limb }

/-- The context keeps one monomial for each power. -/
abbrev MonomialCache := Nat → Option RNSPoly

namespace Constants

variable (cc : Constants)

/-- A power that reaches the dimension always gets a negative coefficient. -/
def coefs (power id : Nat) : Limb :=
  if power < cc.N then fun i => if i = power then 1 else 0
  else fun i => if i = power % cc.N then cc.primes id - 1 else 0

/-- An auxiliary polynomial is filled with the coefficients and transformed. It was grown to the level
just before, so the check of its limbs passes. -/
def buildMonomial (aux : RNSPoly) (level power : Nat) : RNSPoly :=
  { aux with
    level := level
    limb := onLimbs (level + 1) (fun id => cc.NTT id (cc.coefs power id)) aux.limb }

/-- A cached monomial is used again only at its own level. -/
def loadMonomial (aux : RNSPoly) (monomialCache : MonomialCache) (level power : Nat) :
    MonomialCache :=
  if (monomialCache power).any fun monomial => monomial.level = level then monomialCache
  else Function.update monomialCache power (some (cc.buildMonomial aux level power))

end Constants

def Ciphertext.multMonomial (cc : Constants) (aux : RNSPoly) (monomialCache : MonomialCache)
    (self : Ciphertext) (power : Nat) : Option (MonomialCache × Ciphertext) :=
  let loaded := cc.loadMonomial aux monomialCache self.c0.level power
  (loaded power).map fun monomial => (loaded,
    { c0 := self.c0.multElement cc (cc.N / 2) monomial
      c1 := self.c1.multElement cc (cc.N / 2) monomial })

/-- These caches arise from products at any levels and from the release of the context. -/
inductive MonomialCache.Reachable (cc : Constants) : MonomialCache → Prop
  | empty : Reachable cc fun _ => none
  | load {monomialCache : MonomialCache} (earlier : Reachable cc monomialCache) (aux : RNSPoly)
      (level power : Nat) : Reachable cc (cc.loadMonomial aux monomialCache level power)

/-- Each cached monomial holds its power in every limb up to its level. -/
def MonomialCache.Sound (cc : Constants) (monomialCache : MonomialCache) : Prop :=
  ∀ power monomial, monomialCache power = some monomial →
    ∀ id, id ≤ monomial.level → monomial.limb id = cc.NTT id (cc.coefs power id)

/-- A load keeps the other monomials and leaves one at the level of the ciphertext. -/
theorem MonomialCache.Sound.load {cc : Constants} {monomialCache : MonomialCache}
    (sound : monomialCache.Sound cc) (aux : RNSPoly) (level power : Nat) :
    (cc.loadMonomial aux monomialCache level power).Sound cc ∧
      ∃ monomial, cc.loadMonomial aux monomialCache level power power = some monomial ∧
        monomial.level = level := by
  by_cases cached : (monomialCache power).any fun monomial => monomial.level = level
  · rw [Constants.loadMonomial, if_pos cached]
    cases found : monomialCache power with
    | none => simp [found] at cached
    | some monomial =>
        have same : monomial.level = level := by simpa [found] using cached
        exact ⟨sound, monomial, rfl, same⟩
  · rw [Constants.loadMonomial, if_neg cached]
    refine ⟨?_, _, Function.update_self _ _ _, rfl⟩
    intro other monomial found id inside
    by_cases equal : other = power
    · subst equal
      rw [Function.update_self] at found
      have built := Option.some.inj found
      subst built
      change onLimbs (level + 1) (fun id => cc.NTT id (cc.coefs other id)) aux.limb id = _
      exact onLimbs_inside _ _ (Nat.lt_succ_of_le inside)
    · rw [Function.update_of_ne equal] at found
      exact sound other monomial found id inside

theorem MonomialCache.Reachable.sound {cc : Constants} {monomialCache : MonomialCache}
    (reachable : monomialCache.Reachable cc) : monomialCache.Sound cc := by
  induction reachable with
  | empty =>
      intro power monomial found
      cases found
  | load earlier aux level power ih => exact (ih.load aux level power).1

/-- The limbs of the result are the limbs of the polynomial times a power of the variable. -/
structure RNSPoly.ShiftedBy (raw : RawParams) (power : Nat) (result poly : RNSPoly) : Prop where
  level : result.level = poly.level
  canonical : ∀ id, id ≤ poly.level → ∀ i, i < raw.N → result.limb id i < raw.prime id
  coefficients : ∀ id, id ≤ poly.level → ∀ i, i < raw.N →
    ((SetupConstants raw).INTT id (result.limb id) i : ZMod (raw.prime id)) =
      reduced raw.N (polynomial raw.N (residues (raw.prime id)
        ((SetupConstants raw).INTT id (poly.limb id))) * Polynomial.X ^ power) i

/-- Both polynomials have one level and canonical words. -/
structure Ciphertext.Canonical (raw : RawParams) (ctxt : Ciphertext) : Prop where
  level : ctxt.c1.level = ctxt.c0.level
  c0 : ctxt.c0.Canonical raw
  c1 : ctxt.c1.Canonical raw

/-- For each reachable cache the product shifts both polynomials. -/
def MonomialContract (raw : RawParams) (power : Nat) : Prop :=
  ∀ (aux : RNSPoly) (monomialCache : MonomialCache) (ctxt : Ciphertext),
    monomialCache.Reachable (SetupConstants raw) → ctxt.Canonical raw →
      ∃ loaded result, ctxt.multMonomial (SetupConstants raw) aux monomialCache power =
          some (loaded, result) ∧
        result.c0.ShiftedBy raw power ctxt.c0 ∧ result.c1.ShiftedBy raw power ctxt.c1

section Words

variable {raw : RawParams} (generated : raw.Generated) {id : Nat} (inside : id < raw.L + raw.K)

include generated inside

/-- The point of a slot is a root of minus one. -/
theorem point_root (slot : Nat) :
    ((raw.root id : ZMod (raw.prime id)) ^ (2 * reverse (raw.logN - 1 + 1) slot + 1)) ^ raw.N =
      -1 := by
  have power := odd_power (root_half generated inside) (reverse (raw.logN - 1 + 1) slot)
  rwa [generated.dimension] at power

/-- The transformed monomial has the sign that the power had when it was reduced. -/
theorem coefs_forward (power : Nat) {slot : Nat} (bound : slot < raw.N) :
    ((SetupConstants raw).NTT id ((SetupConstants raw).coefs power id) slot :
        ZMod (raw.prime id)) =
      (if power < raw.N then 1 else -1) *
        ((raw.root id : ZMod (raw.prime id)) ^ (2 * reverse (raw.logN - 1 + 1) slot + 1)) ^
          (power % raw.N) := by
  have positive := (generated.modulus inside).pos
  have below : slot < 2 ^ (raw.logN - 1 + 1) := lt_of_lt_of_eq bound generated.dimension.symm
  have small : power % raw.N < 2 ^ (raw.logN - 1 + 1) :=
    lt_of_lt_of_eq (Nat.mod_lt _ (Nat.two_pow_pos _)) generated.dimension.symm
  have read : residues (raw.prime id)
        ((SetupConstants raw).NTT id ((SetupConstants raw).coefs power id)) slot =
      NegacyclicTransform.forward (raw.root id : ZMod (raw.prime id)) (raw.logN - 1)
        (residues (raw.prime id) ((SetupConstants raw).coefs power id)) slot :=
    congrFun (@Constants.residues_NTT (SetupConstants raw) id positive _) slot
  have sign : residues (raw.prime id) ((SetupConstants raw).coefs power id) =
      fun i => if i = power % raw.N then (if power < raw.N then 1 else -1) else 0 := by
    funext i
    have large := (generated.prime id inside).one_lt
    by_cases low : power < raw.N
    · have kept := Nat.mod_eq_of_lt low
      have entry : (SetupConstants raw).coefs power id i = if i = power then 1 else 0 :=
        congrFun (if_pos low) i
      rw [residues, entry, kept, if_pos low]
      split_ifs <;> simp
    · have entry : (SetupConstants raw).coefs power id i =
          if i = power % raw.N then raw.prime id - 1 else 0 := congrFun (if_neg low) i
      rw [residues, entry, if_neg low]
      split_ifs
      · rw [Nat.cast_sub large.le, ZMod.natCast_self, Nat.cast_one, zero_sub]
      · exact Nat.cast_zero
  rw [sign, forward_single (root_half generated inside) _ small below] at read
  exact read

/-- A power with a matching sign is the value of the variable at each point. -/
theorem coefs_power {power : Nat} (signed : power < raw.N ∨ power / raw.N % 2 = 1) {slot : Nat}
    (bound : slot < raw.N) :
    ((SetupConstants raw).NTT id ((SetupConstants raw).coefs power id) slot :
        ZMod (raw.prime id)) =
      ((raw.root id : ZMod (raw.prime id)) ^ (2 * reverse (raw.logN - 1 + 1) slot + 1)) ^ power := by
  rw [coefs_forward generated inside power bound,
    power_turns (point_root generated inside slot) power]
  rcases signed with low | odd
  · rw [if_pos low, Nat.div_eq_of_lt low, pow_zero]
  · have high : ¬power < raw.N := by
      intro low
      rw [Nat.div_eq_of_lt low] at odd
      omega
    rw [if_neg high, Odd.neg_one_pow (Nat.odd_iff.mpr odd)]

/-- The words of a product are the products of the words. -/
theorem Mult_cast {a monomial old : Limb} {slot : Nat} (bound : slot < raw.N)
    (canonical : a slot < raw.prime id) (small : monomial slot < raw.prime id) :
    (launch (threads (SetupConstants raw)) (Mult_ (SetupConstants raw) id raw.N a monomial) old
      slot : ZMod (raw.prime id)) = a slot * monomial slot := by
  have product : (modmult .barrett (a slot) (monomial slot) (raw.prime id) 0 : ZMod (raw.prime id)) =
      a slot * monomial slot :=
    barrett_cast (generated.modulus inside) canonical small
  rw [threads_eq, launch_inside _ _ bound, Mult_, bidx_whole]
  exact product

/-- A product with a limb that holds a power is a product in the ring. -/
theorem Mult_shifts {power : Nat} {a monomial old : Limb}
    (canonical : ∀ i, i < raw.N → a i < raw.prime id)
    (holds : ∀ slot, slot < raw.N → monomial slot < raw.prime id ∧
      (monomial slot : ZMod (raw.prime id)) =
        ((raw.root id : ZMod (raw.prime id)) ^ (2 * reverse (raw.logN - 1 + 1) slot + 1)) ^ power)
    {i : Nat} (bound : i < raw.N) :
    ((SetupConstants raw).INTT id (launch (threads (SetupConstants raw))
        (Mult_ (SetupConstants raw) id raw.N a monomial) old) i : ZMod (raw.prime id)) =
      reduced raw.N (polynomial raw.N (residues (raw.prime id)
        ((SetupConstants raw).INTT id a)) * Polynomial.X ^ power) i := by
  have fact := generated.fact_prime inside
  apply INTT_unique generated inside _ bound
  intro slot below
  obtain ⟨small, value⟩ := holds slot below
  have fits : slot < 2 ^ (raw.logN - 1 + 1) := lt_of_lt_of_eq below generated.dimension.symm
  have ring := forward_mul (root_half generated inside)
    (residues (raw.prime id) ((SetupConstants raw).INTT id a)) (Polynomial.X ^ power) fits
  rw [generated.dimension, forward_INTT generated inside, Polynomial.eval_pow, Polynomial.eval_X]
    at ring
  rw [Mult_cast generated inside below (canonical slot below) small, value, ring]

theorem Mult_lt {a monomial old : Limb} (canonical : ∀ i, i < raw.N → a i < raw.prime id)
    (small : ∀ slot, slot < raw.N → monomial slot < raw.prime id) {i : Nat} (bound : i < raw.N) :
    launch (threads (SetupConstants raw)) (Mult_ (SetupConstants raw) id raw.N a monomial) old i <
      raw.prime id := by
  rw [threads_eq, launch_inside _ _ bound, Mult_, bidx_whole]
  exact barrett_lt (generated.modulus inside) (canonical i bound) (small i bound)

end Words

section Products

variable {raw : RawParams} (generated : raw.Generated)

include generated

omit generated in
/-- Each limb up to the level is multiplied by the limb of the monomial. -/
theorem multElement_limb {poly monomial : RNSPoly} (whole : 2 * (raw.N / 2) = raw.N) {id : Nat}
    (low : id ≤ poly.level) :
    (poly.multElement (SetupConstants raw) (raw.N / 2) monomial).limb id =
      launch (threads (SetupConstants raw))
        (Mult_ (SetupConstants raw) id raw.N (poly.limb id) (monomial.limb id))
        (poly.limb id) := by
  have read := onLimbs_inside (fun i => launch (threads (SetupConstants raw))
    (Mult_ (SetupConstants raw) i (2 * (raw.N / 2)) (poly.limb i) (monomial.limb i))
    (poly.limb i)) poly.limb (Nat.lt_succ_of_le low)
  refine read.trans ?_
  rw [whole]

theorem whole_slots : 2 * (raw.N / 2) = raw.N := by
  have dimension := generated.dimension
  rw [pow_succ] at dimension
  omega

/-- The product of a polynomial with a sound monomial shifts it when the sign of the power is
right. -/
theorem multElement_shifts {power : Nat} (signed : power < raw.N ∨ power / raw.N % 2 = 1)
    {poly monomial : RNSPoly} (canonical : poly.Canonical raw)
    (covers : poly.level ≤ monomial.level)
    (holds : ∀ id, id ≤ monomial.level → monomial.limb id =
      (SetupConstants raw).NTT id ((SetupConstants raw).coefs power id)) :
    (poly.multElement (SetupConstants raw) (raw.N / 2) monomial).ShiftedBy raw power poly := by
  have words : ∀ id, id ≤ poly.level → ∀ slot, slot < raw.N →
      monomial.limb id slot < raw.prime id ∧
        (monomial.limb id slot : ZMod (raw.prime id)) =
          ((raw.root id : ZMod (raw.prime id)) ^
            (2 * reverse (raw.logN - 1 + 1) slot + 1)) ^ power := by
    intro id low slot bound
    have regular := canonical.level
    have inside : id < raw.L + raw.K := by omega
    rw [holds id (low.trans covers)]
    exact ⟨Constants.NTT_lt (generated.modulus inside).pos _ slot,
      coefs_power generated inside signed bound⟩
  have small : ∀ id, id ≤ poly.level → ∀ i, i < raw.N → poly.limb id i < raw.prime id := by
    intro id low i bound
    have regular := canonical.level
    rw [raw.prime_q (by omega)]
    exact canonical.limb id low i bound
  have regular := canonical.level
  refine ⟨rfl, fun id low i bound => ?_, fun id low i bound => ?_⟩
  · rw [multElement_limb (whole_slots generated) low]
    exact Mult_lt generated (by omega) (small id low) (fun slot below => (words id low slot below).1)
      bound
  · rw [multElement_limb (whole_slots generated) low]
    exact Mult_shifts generated (by omega) (small id low) (words id low) bound

omit generated in
/-- Each product reads a sound monomial at the level of its ciphertext. -/
theorem multMonomial_returns (aux : RNSPoly) {monomialCache : MonomialCache}
    (reachable : monomialCache.Reachable (SetupConstants raw)) (ctxt : Ciphertext) (power : Nat) :
    ∃ loaded monomial, monomial.level = ctxt.c0.level ∧
      (∀ id, id ≤ monomial.level → monomial.limb id =
        (SetupConstants raw).NTT id ((SetupConstants raw).coefs power id)) ∧
      ctxt.multMonomial (SetupConstants raw) aux monomialCache power = some (loaded,
        { c0 := ctxt.c0.multElement (SetupConstants raw) (raw.N / 2) monomial
          c1 := ctxt.c1.multElement (SetupConstants raw) (raw.N / 2) monomial }) := by
  obtain ⟨sound, monomial, found, level⟩ := reachable.sound.load aux ctxt.c0.level power
  refine ⟨(SetupConstants raw).loadMonomial aux monomialCache ctxt.c0.level power, monomial, level,
    sound power monomial found, ?_⟩
  rw [Ciphertext.multMonomial, found]
  rfl

/-- This polynomial has the constant coefficient one in each limb. -/
def unitPoly : RNSPoly where
  level := 0
  limb := fun _ _ => 1
  special := fun _ _ => 0
  specialLimbs := 0
  modUp := false

theorem unitPoly_canonical (chain : 0 < raw.L) : unitPoly.Canonical raw where
  level := chain
  limb j low i _ := by
    have zero : j = 0 := Nat.le_zero.mp low
    have large := (generated.prime 0 (by omega)).one_lt
    rw [zero, ← raw.prime_q chain]
    exact large
  special extended := by simp [unitPoly] at extended
  allocated := Or.inl rfl

/-- With the wrong sign already the unit is not shifted. -/
theorem unitPoly_not_shifted (chain : 0 < raw.L) {power : Nat} (high : raw.N ≤ power)
    (even : power / raw.N % 2 = 0) {monomial : RNSPoly}
    (holds : monomial.limb 0 = (SetupConstants raw).NTT 0 ((SetupConstants raw).coefs power 0)) :
    ¬(unitPoly.multElement (SetupConstants raw) (raw.N / 2) monomial).ShiftedBy raw power
      unitPoly := by
  intro shifted
  have inside : 0 < raw.L + raw.K := by omega
  have fact := generated.fact_prime inside
  have modulus := generated.modulus inside
  have ring : 0 < raw.N := Nat.two_pow_pos _
  have first : 0 < 2 ^ (raw.logN - 1 + 1) := Nat.two_pow_pos _
  let point := (raw.root 0 : ZMod (raw.prime 0)) ^ (2 * reverse (raw.logN - 1 + 1) 0 + 1)
  have root : point ^ raw.N = -1 := point_root generated inside 0
  have turns : point ^ power = point ^ (power % raw.N) := by
    rw [power_turns root power, Even.neg_one_pow (Nat.even_iff.mpr even), one_mul]
  -- The first word is the value of the power for a shift, and its negative in the code.
  have expected : ((unitPoly.multElement (SetupConstants raw) (raw.N / 2) monomial).limb 0 0 :
      ZMod (raw.prime 0)) = point ^ (power % raw.N) := by
    have value := forward_unique generated inside (shifted.coefficients 0 le_rfl) ring
    have product := forward_mul (root_half generated inside) (residues (raw.prime 0)
      ((SetupConstants raw).INTT 0 (unitPoly.limb 0))) (Polynomial.X ^ power) first
    rw [generated.dimension, forward_INTT generated inside, Polynomial.eval_pow, Polynomial.eval_X]
      at product
    rw [value, product, ← turns]
    simp [unitPoly, point]
  have actual : ((unitPoly.multElement (SetupConstants raw) (raw.N / 2) monomial).limb 0 0 :
      ZMod (raw.prime 0)) = -point ^ (power % raw.N) := by
    have low : ¬power < raw.N := not_lt.mpr high
    have value := coefs_forward generated inside power ring
    rw [if_neg low, neg_one_mul] at value
    have one : unitPoly.limb 0 0 < raw.prime 0 := (generated.prime 0 inside).one_lt
    have small : monomial.limb 0 0 < raw.prime 0 := by
      rw [holds]
      exact Constants.NTT_lt modulus.pos _ 0
    rw [multElement_limb (whole_slots generated) (show 0 ≤ unitPoly.level from le_rfl), Mult_cast generated inside ring one small,
      holds, value]
    simp [unitPoly, point]
  have double : (2 : ZMod (raw.prime 0)) * point ^ (power % raw.N) = 0 := by
    rw [two_mul]
    nth_rewrite 2 [← expected]
    rw [actual, add_neg_cancel]
  rcases mul_eq_zero.mp double with two | vanishes
  · have divides := (ZMod.natCast_eq_zero_iff 2 (raw.prime 0)).mp two
    exact generated.odd 0 inside
      ((Nat.prime_dvd_prime_iff_eq (generated.prime 0 inside) Nat.prime_two).mp divides)
  · have nonzero : point ≠ 0 := by
      intro zero
      rw [zero, zero_pow ring.ne'] at root
      exact one_ne_zero (neg_eq_zero.mp root.symm)
    exact pow_ne_zero _ nonzero vanishes

/-- Already the first product with an even number of turns fails on the unit. -/
theorem even_turns_fail (chain : 0 < raw.L) {power : Nat} (high : raw.N ≤ power)
    (even : power / raw.N % 2 = 0) : ¬MonomialContract raw power := by
  intro contract
  have fresh : MonomialCache.Reachable (SetupConstants raw) fun _ => none := .empty
  have canonical := unitPoly_canonical generated chain
  obtain ⟨loaded, result, done, shifted, -⟩ := contract unitPoly _ ⟨unitPoly, unitPoly⟩ fresh
    ⟨rfl, canonical, canonical⟩
  obtain ⟨other, monomial, level, holds, returned⟩ :=
    multMonomial_returns unitPoly fresh ⟨unitPoly, unitPoly⟩ power
  rw [returned] at done
  obtain ⟨-, same⟩ := Prod.mk.inj (Option.some.inj done)
  rw [← same] at shifted
  exact unitPoly_not_shifted generated chain high even (holds 0 (Nat.zero_le _)) shifted

/-- The products shift for every reachable cache exactly when the power has its sign. -/
theorem monomial_contract_iff (chain : 0 < raw.L) (power : Nat) :
    MonomialContract raw power ↔ power < raw.N ∨ power / raw.N % 2 = 1 := by
  constructor
  · intro contract
    by_cases low : power < raw.N
    · exact Or.inl low
    · right
      by_contra even
      exact even_turns_fail generated chain (not_lt.mp low) (by omega) contract
  · intro signed aux monomialCache ctxt reachable canonical
    obtain ⟨loaded, monomial, level, holds, returned⟩ :=
      multMonomial_returns aux reachable ctxt power
    refine ⟨loaded, _, returned, ?_, ?_⟩
    · exact multElement_shifts generated signed canonical.c0 level.ge holds
    · exact multElement_shifts generated signed canonical.c1 (canonical.level.trans level.symm).le
        holds

end Products

theorem monomial_contract_small :
    MonomialContract smallParams 200 ↔ 200 < smallParams.N ∨ 200 / smallParams.N % 2 = 1 :=
  monomial_contract_iff smallParams_generated (by decide) 200

/-- A full turn of the variable is the identity, but the code negates the ciphertext. -/
theorem full_turn_negates : ¬MonomialContract smallParams 256 :=
  even_turns_fail smallParams_generated (by decide) (by decide) (by decide)

end Fideslib.KeySwitch
