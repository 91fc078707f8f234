/-
This file shows that the two paths of the hoisted rotations differ once they leave the extended basis.
-/

import Fideslib.KeySwitch.HoistedBatchContract
import Fideslib.KeySwitch.Monomial

namespace Fideslib.KeySwitch

open BitReversal (reverse)
open Constants (SetupConstants)
open Fideslib.Modular
open NegacyclicRing (power_turns)

section Words

variable {raw : RawParams} (generated : raw.Generated) {id : Nat} (inside : id < raw.L + raw.K)

include generated inside

theorem coefs_lt (power i : Nat) : (SetupConstants raw).coefs power id i < raw.prime id := by
  have large := (generated.prime id inside).one_lt
  have last : (SetupConstants raw).primes id - 1 < raw.prime id := by
    change raw.prime id - 1 < raw.prime id
    omega
  rw [Constants.coefs]
  split_ifs
  · dsimp only
    split_ifs <;> omega
  · dsimp only
    split_ifs <;> omega

/-- An automorphism moves the limb of a power to the limb of a higher power. -/
theorem coefs_moved (narrow : raw.logN ≤ 31) {inverse power : Nat} (odd : inverse % 2 = 1)
    (low : power < raw.N) (signed : power * inverse / raw.N % 2 = 1) {slot : Nat}
    (bound : slot < raw.N) :
    (SetupConstants raw).NTT id ((SetupConstants raw).coefs power id)
        (automorph_slot raw.logN inverse slot) =
      (SetupConstants raw).NTT id ((SetupConstants raw).coefs (power * inverse) id) slot := by
  have positive := (generated.modulus inside).pos
  have source : automorph_slot raw.logN inverse slot < raw.N := automorph_slot_lt narrow _ _
  have bits : raw.logN - 1 + 1 = raw.logN := by
    have ring := generated.ring
    omega
  have turn : (raw.root id : ZMod (raw.prime id)) ^ 2 ^ (raw.logN + 1) = 1 := by
    have half := root_half generated inside
    rw [bits] at half
    rw [pow_succ, pow_mul, half, neg_one_sq]
  apply word_ext (Constants.NTT_lt positive _ _) (Constants.NTT_lt positive _ _)
  have first := coefs_power generated inside (Or.inl low) source
  have second := coefs_power generated inside (Or.inr signed) bound
  change ((SetupConstants raw).NTT id _ _ : ZMod (raw.prime id)) = _
  rw [first]
  refine Eq.trans ?_ second.symm
  rw [bits, ← automorph_slot_exponent narrow odd, ← pow_eq_pow_mod _ turn, ← pow_mul, ← pow_mul]
  congr 1
  ring

end Words

section Lowered

variable {raw : RawParams} (generated : raw.Generated) (narrow : raw.logN ≤ 30) {digits : Digits raw}
  {level : Nat} (bound : level < raw.L) {source : DigitPoly} (sourceReduced : digits.Reduced level source)
  {ksk : KeySwitchingKey} (keyReduced : ∀ component, digits.Reduced level (ksk.half component))

include generated

/-- Both halves of a result are divided by the special primes. -/
theorem modDown_words (around : Surroundings) (i : Nat) {result : Component → RNSPoly}
    (canonical : ∀ component, (result component).Canonical raw)
    (extended : ∀ component, (result component).Extended raw) :
    ∃ out, modDown (SetupConstants raw) around i result = some out ∧
      ∀ component, (out component).level = (result component).level ∧
        (out component).modUp = false ∧
        ∀ id, id ≤ (result component).level → ∀ slot, slot < raw.N →
          (out component).limb id slot =
            moddown_fusion (SetupConstants raw) .shoup id ((result component).limb id)
              ((SetupConstants raw).NTT id (raw.lifted true (result component))) slot := by
  have halves := fun component => moddown_words generated true .shoup false (canonical component)
    (extended component) (around.moddownAux i component)
  obtain ⟨c0, ran0, level0, modUp0, words0⟩ := halves .c0
  obtain ⟨c1, ran1, level1, modUp1, words1⟩ := halves .c1
  rw [modDown, ran0, ran1]
  refine ⟨_, rfl, ?_⟩
  intro component
  cases component with
  | c0 => exact ⟨level0, modUp0, words0⟩
  | c1 => exact ⟨level1, modUp1, words1⟩

include bound sourceReduced keyReduced

/-- The product with a key is extended and has reduced words. -/
theorem dotKSKInPlaceFrom_canonical {order : List (Nat × Nat)}
    (covers : Covers order (raw.K + (level + 1)) raw.N) (stale : PointerTable) {self aux2 : RNSPoly}
    (atLevel : self.level = level)
    (allocated : ∀ poly ∈ [self, aux2], poly.specialLimbs = 0 ∨ poly.specialLimbs = raw.K) :
    let out := dotKSKInPlaceFrom digits (SetupConstants raw) order stale self aux2 source ksk
    (out.1.Canonical raw ∧ out.1.Extended raw) ∧ out.2.Canonical raw ∧ out.2.Extended raw := by
  have products := fun {id idx : Nat} => @dotKSKInPlaceFrom_word raw generated digits level bound
    source ksk sourceReduced (keyReduced .c1) (keyReduced .c0) order stale self aux2 atLevel covers id
    idx
  have levels := dotKSKInPlaceFrom_level digits (SetupConstants raw) order stale self aux2 source ksk
  have reduced : ∀ component id idx, raw.Live level id → idx < raw.N →
      modreduce (digits.dot level source (ksk.half component) id idx) (raw.prime id) <
        raw.prime id := by
    intro component id idx live column
    have positive : NeZero (raw.prime id) := ⟨(generated.modulus (live.inside bound)).pos.ne'⟩
    rw [dot_reduced generated bound sourceReduced (keyReduced component) live column]
    exact ZMod.val_lt _
  have first := generateSpecialLimbs_allocated (allocated self (by simp))
  have second : (RNSPoly.generateSpecialLimbs (SetupConstants raw)
      { aux2 with level := self.level }).specialLimbs = raw.K :=
    generateSpecialLimbs_allocated (allocated aux2 (by simp))
  dsimp only at products levels ⊢
  rw [atLevel] at levels
  obtain ⟨level1, level2, up1, up2⟩ := levels
  refine ⟨⟨RNSPoly.canonical_of_word (level1 ▸ bound) ?_ (Or.inr first), up1, first⟩,
    RNSPoly.canonical_of_word (level2 ▸ bound) ?_ (Or.inr second), up2, second⟩
  · intro id slot live inside
    rw [level1] at live
    rw [(products live inside).1]
    exact reduced .c1 id slot live inside
  · intro id slot live inside
    rw [level2] at live
    rw [(products live inside).2]
    exact reduced .c0 id slot live inside

include narrow

/-- Without the extended basis the steps divide the product before they move its words. -/
theorem rotateUnfused_lowered (around : Surroundings) (i : Nat) {result : Component → RNSPoly}
    (atLevel : ∀ component, (result component).level = level)
    (allocated : ∀ poly ∈ [result .c1, around.aux2],
      poly.specialLimbs = 0 ∨ poly.specialLimbs = raw.K) {c0 : RNSPoly} (low : level ≤ c0.level)
    (regular : c0.modUp = false) (covers : Covers (around.dot i) (raw.K + (level + 1)) raw.N)
    (moves : ∀ id j, j ∈ around.move i .c1 id ↔ j < raw.N) {actual_index inverse : Nat}
    (undoes : Undoes raw actual_index inverse) :
    ∃ rotated, rotateUnfused digits (SetupConstants raw) around false i c0 source ksk actual_index
        result = some rotated ∧ ∀ id, id ≤ level → ∀ slot, slot < raw.N →
          (rotated .c1).limb id slot =
            let product := (dotKSKInPlaceFrom digits (SetupConstants raw) (around.dot i) around.stale
              (result .c1) around.aux2 source ksk).1
            moddown_fusion (SetupConstants raw) .shoup id (product.limb id)
              ((SetupConstants raw).NTT id (raw.lifted true product))
              (automorph_slot raw.logN inverse slot) := by
  have products := dotKSKInPlaceFrom_canonical generated bound sourceReduced keyReduced covers
    around.stale (atLevel .c1) allocated
  have levels := dotKSKInPlaceFrom_level digits (SetupConstants raw) (around.dot i) around.stale
    (result .c1) around.aux2 source ksk
  simp only [rotateUnfused, Bool.false_eq_true, if_false, Option.bind_eq_bind]
  generalize dotKSKInPlaceFrom digits (SetupConstants raw) (around.dot i) around.stale (result .c1)
    around.aux2 source ksk = out at products levels ⊢
  obtain ⟨⟨canonical1, extended1⟩, canonical2, extended2⟩ := products
  obtain ⟨c1, ran1, level1, modUp1, words1⟩ := moddown_words generated true .shoup false canonical1
    extended1 (around.moddownAux i .c1)
  obtain ⟨aux0, ran0, level0, modUp0, -⟩ := moddown_words generated true .shoup false canonical2
    extended2 (around.moddownAux i .c0)
  rw [atLevel] at levels
  have runs : (result .c0).level ≤ c0.level ∧ (result .c0).level ≤ aux0.level ∧
      (c0.modUp = true ∨ aux0.modUp = true → (result .c0).specialLimbs = (SetupConstants raw).K) ∧
      (aux0.modUp = true ∧ ¬c0.modUp = true →
        (SetupConstants raw).N / 2 * 2 = (SetupConstants raw).N) := by
    rw [regular, modUp0, atLevel, level0, levels.2.1]
    simp [low]
  rw [ran1, ran0, Option.bind_some, Option.bind_some, RNSPoly.addFrom, if_pos runs]
  refine ⟨_, rfl, ?_⟩
  intro id below slot inside
  have chained : id < raw.L := below.trans_lt bound
  have kept : c1.level = level := level1.trans levels.1
  obtain ⟨old, moved⟩ := automorph_limb generated (around.move i .c1) (around.aux i .c1)
    (around.specialAux i .c1) actual_index c1 (Or.inl ⟨kept ▸ below, chained⟩)
  have word := congrFun moved slot
  rw [automorph_launch (by omega) undoes.1 (automorph_index_odd _ _) undoes.2 _ (moves id) old inside,
    RNSPoly.word, RNSPoly.word, if_pos chained, if_pos chained] at word
  rw [← words1 id (levels.1.symm ▸ below) _ (automorph_slot_lt (by omega) _ _)]
  exact word

end Lowered

section Differences

variable {raw : RawParams} (generated : raw.Generated)

include generated

/-- Equal quotients of equal words have equal transforms of their lifts. -/
theorem moddown_fusion_cancel (algo : ALGO) {j : Nat} (row : j < raw.L) {res other A B : Limb}
    {idx pos : Nat} (first : A idx < raw.q j) (second : B pos < raw.q j) (small : res idx < raw.q j)
    (same : res idx = other pos)
    (equal : moddown_fusion (SetupConstants raw) algo j res A idx =
      moddown_fusion (SetupConstants raw) algo j other B pos) : A idx = B pos := by
  have left := moddown_fusion_cast generated row algo small first
  have right := moddown_fusion_cast generated row algo (same ▸ small) second
  rw [equal, right, ← same] at left
  have inverse := P_inv_mul_P generated row
  apply word_ext first second
  linear_combination (SetupConstants raw).P j * left +
    ((A idx : ZMod (raw.q j)) - B pos) * -inverse

end Differences

/-- The special limb of this polynomial is the transform of a power of the variable. -/
def tiltedDigits : DigitPoly where
  limb := fun _ _ => 1
  DIGITlimb := fun _ _ =>
    (SetupConstants smallParams).NTT 2 ((SetupConstants smallParams).coefs 26 2)

def tiltedKey : KeySwitchingKey where
  a := tiltedDigits
  b := flatDigits

theorem small_live {id : Nat} (live : smallParams.Live 0 id) : id = 0 ∨ id = 2 := by
  change id ≤ 0 ∨ 2 ≤ id ∧ id < 3 at live
  omega

theorem tilted_operand {id : Nat} (live : smallParams.Live 0 id) (idx : Nat) :
    smallDigits.operand tiltedDigits 0 id idx =
      if id = 0 then 1 else (SetupConstants smallParams).NTT 2
        ((SetupConstants smallParams).coefs 26 2) idx := by
  rcases small_live live with rfl | rfl <;> rfl

theorem tilted_operand_lt {id : Nat} (live : smallParams.Live 0 id) (idx : Nat) :
    smallDigits.operand tiltedDigits 0 id idx < smallParams.prime id := by
  rw [tilted_operand live]
  rcases small_live live with rfl | rfl
  · rw [if_pos rfl]
    decide
  · have inside : 2 < smallParams.L + smallParams.K := by decide
    exact Constants.NTT_lt (smallParams_generated.modulus inside).pos _ idx

theorem tiltedKey_reduced (component : Component) :
    smallDigits.Reduced 0 (tiltedKey.half component) := by
  cases component with
  | c0 => exact flatDigits_reduced
  | c1 =>
      intro i inside id live idx _
      change i < 1 at inside
      obtain rfl : i = 0 := by omega
      exact tilted_operand_lt live idx

/-- The inner product with the key is the key. -/
theorem tilted_dot (id idx : Nat) :
    smallDigits.dot 0 flatDigits (tiltedKey.half .c1) id idx =
      smallDigits.operand tiltedDigits 0 id idx := by
  have one : smallDigits.operand flatDigits 0 id idx = 1 := by
    rw [Digits.operand]
    split_ifs <;> rfl
  change ∑ i ∈ Finset.range 1, smallDigits.operand flatDigits i id idx *
    smallDigits.operand tiltedDigits i id idx = _
  rw [Finset.sum_range_one, one, Nat.one_mul]

/-- There is one special prime, so the lift is its coefficient. -/
theorem small_lifted {poly : RNSPoly} (canonical : poly.Canonical smallParams)
    (extended : poly.Extended smallParams) {i : Nat} (bound : i < smallParams.N) :
    smallParams.lifted true poly i = (SetupConstants smallParams).INTT 2 (poly.special 0) i := by
  obtain ⟨residue, small⟩ := lifted_residue smallParams_generated true canonical extended
    (show 0 < smallParams.K by decide) bound
  have whole : smallParams.lifted true poly i < smallParams.p 0 := small
  rwa [Nat.mod_eq_of_lt whole] at residue

theorem small_live_special : smallParams.Live 0 2 := Or.inr ⟨by decide, by decide⟩

/-- The lift of a product with a power of the variable is this power. -/
theorem small_lifted_coefs {poly : RNSPoly} (canonical : poly.Canonical smallParams)
    (extended : poly.Extended smallParams) {power : Nat}
    (holds : ∀ slot, slot < smallParams.N → poly.word smallParams 2 slot =
      (SetupConstants smallParams).NTT 2 ((SetupConstants smallParams).coefs power 2) slot)
    {i : Nat} (bound : i < smallParams.N) :
    smallParams.lifted true poly i = (SetupConstants smallParams).coefs power 2 i := by
  have inside : 2 < smallParams.L + smallParams.K := by decide
  have special : ∀ slot, poly.word smallParams 2 slot = poly.special 0 slot := fun _ => rfl
  have read := @RawParams.Generated.INTT_congr smallParams smallParams_generated 2 _ _
    (fun slot below => (special slot).symm.trans (holds slot below)) i bound
  rw [small_lifted canonical extended bound, read]
  apply smallParams_generated.INTT_NTT inside _ bound
  intro j _
  exact coefs_lt smallParams_generated inside power j

/-- The key sends the special limb of the product to a power that turns around the ring. -/
theorem tilted_moved {id slot : Nat} (bound : slot < smallParams.N)
    (inside : id < smallParams.L + smallParams.K) :
    (SetupConstants smallParams).NTT id ((SetupConstants smallParams).coefs 26 id)
        (automorph_slot 7 5 slot) =
      (SetupConstants smallParams).NTT id ((SetupConstants smallParams).coefs 130 id) slot :=
  coefs_moved smallParams_generated inside (show smallParams.logN ≤ 31 by decide) (by decide)
    (show 26 < smallParams.N by decide) (show 26 * 5 / smallParams.N % 2 = 1 by decide) bound

/-- The coefficient minus one of the special prime is not minus one of the chain. -/
theorem turned_differ :
    ¬∀ slot, slot < smallParams.N →
      (SetupConstants smallParams).NTT 0 ((SetupConstants smallParams).coefs 130 2) slot =
        (SetupConstants smallParams).NTT 0 ((SetupConstants smallParams).coefs 130 0) slot := by
  intro same
  have chain : 0 < smallParams.L + smallParams.K := by decide
  have bound : 2 < smallParams.N := by decide
  have reduced : ∀ slot, slot < smallParams.N →
      (SetupConstants smallParams).NTT 0 ((SetupConstants smallParams).coefs 130 2) slot =
        (SetupConstants smallParams).NTT 0
          (fun i => (SetupConstants smallParams).coefs 130 2 i % smallParams.prime 0) slot := by
    intro slot below
    apply smallParams_generated.NTT_congr _ below
    intro i _
    exact (ZMod.natCast_mod _ (smallParams.prime 0)).symm
  have back := @RawParams.Generated.INTT_congr smallParams smallParams_generated 0 _ _
    (fun slot below => (reduced slot below).symm.trans (same slot below)) 2 bound
  rw [smallParams_generated.INTT_NTT chain (fun i _ => Nat.mod_lt _ (by decide)) bound,
    smallParams_generated.INTT_NTT chain
      (fun i _ => coefs_lt smallParams_generated chain 130 i) bound] at back
  exact absurd back (by decide)

/-- The residues of the product with the key are its words. -/
theorem tilted_residue {id : Nat} (live : smallParams.Live 0 id) (idx : Nat) :
    (smallDigits.dot 0 flatDigits (tiltedKey.half .c1) id idx : ZMod (smallParams.prime id)).val =
      smallDigits.operand tiltedDigits 0 id idx := by
  rw [tilted_dot, ZMod.val_natCast_of_lt (tilted_operand_lt live idx)]

theorem undoes_one : Undoes smallParams 1 5 :=
  ⟨by decide, automorph_index_cancels (show smallParams.logN ≤ 32 by decide)
    (five_cast smallParams.logN)⟩

/-- The fused launch moves the words of the product with the key. -/
theorem tilted_fused {results : Nat → Component → RNSPoly}
    (atLevel : ∀ component, (results 0 component).level = 0)
    (allocated : ∀ component, (results 0 component).specialLimbs = 0 ∨
      (results 0 component).specialLimbs = smallParams.K) :
    let fused := hoistedRotationFused smallDigits (SetupConstants smallParams) flatSurroundings
      [⟨0, tiltedKey, 1⟩] results flatDigits flatPoly 0 0
    (∀ component, (fused component).level = 0 ∧ (fused component).Canonical smallParams ∧
        (fused component).Extended smallParams) ∧
      ∀ id slot, smallParams.Live 0 id → slot < smallParams.N →
        (fused .c1).word smallParams id slot =
          smallDigits.operand tiltedDigits 0 id (automorph_slot 7 5 slot) := by
  have chain : 0 < smallParams.L := by decide
  have listed : 0 ∈ [(⟨0, tiltedKey, 1⟩ : Rotated)].map Rotated.result := List.mem_singleton.mpr rfl
  have shape := fun component => hoistedRotationFused_extended smallDigits flatSurroundings results
    flatDigits flatPoly 0 listed (allocated component)
  have other : ∀ entry ∈ [(⟨0, tiltedKey, 1⟩ : Rotated)],
      entry.actual_index ≠ 2 * smallParams.N - 1 := by
    intro entry mem
    rw [List.mem_singleton.mp mem]
    decide
  have words := fun component {id slot : Nat} (live : smallParams.Live 0 id)
      (inside : slot < smallParams.N) => @hoistedRotationFused_word smallParams
    smallParams_generated (by decide) smallDigits 0 chain flatDigits flatDigits_reduced flatPoly
    flatPoly_canonical (Nat.le_refl 0) flatSurroundings [⟨0, tiltedKey, 1⟩] (List.nodup_singleton _)
    (by simpa using tiltedKey_reduced) other flatSurroundings_complete.fused results
    ⟨0, tiltedKey, 1⟩ (List.mem_singleton.mpr rfl) 5 undoes_one component id slot live inside
  refine ⟨?_, ?_⟩
  · intro component
    have level := (shape component).1.trans (atLevel component)
    refine ⟨level, ?_, (shape component).2⟩
    apply RNSPoly.canonical_of_word (level.trans_lt chain) _ (Or.inr (shape component).2.2)
    intro id slot live inside
    rw [level] at live
    have positive : NeZero (smallParams.prime id) :=
      ⟨(smallParams_generated.modulus (live.inside chain)).pos.ne'⟩
    exact (words component live inside).trans_lt (ZMod.val_lt _)
  · intro id slot live inside
    have word := words .c1 live inside
    rw [Digits.rotatedResidue, add_zero, tilted_residue live] at word
    exact word

theorem tilted_product :
    let product := (dotKSKInPlaceFrom smallDigits (SetupConstants smallParams)
      (flatSurroundings.dot 0) flatSurroundings.stale flatPoly flatPoly flatDigits tiltedKey).1
    (product.Canonical smallParams ∧ product.Extended smallParams) ∧
      ∀ id slot, smallParams.Live 0 id → slot < smallParams.N →
        product.word smallParams id slot = smallDigits.operand tiltedDigits 0 id slot := by
  have chain : 0 < smallParams.L := by decide
  have allocated : ∀ poly ∈ [flatPoly, flatPoly],
      poly.specialLimbs = 0 ∨ poly.specialLimbs = smallParams.K := by
    simp [flatPoly_canonical.allocated]
  have covers := flatSurroundings_complete.dot 0
  have products := dotKSKInPlaceFrom_canonical smallParams_generated chain flatDigits_reduced
    tiltedKey_reduced covers flatSurroundings.stale rfl allocated
  refine ⟨products.1, ?_⟩
  intro id slot live inside
  have word := @dotKSKInPlaceFrom_word smallParams smallParams_generated smallDigits 0 chain
    flatDigits tiltedKey flatDigits_reduced (tiltedKey_reduced .c1) (tiltedKey_reduced .c0)
    (flatSurroundings.dot 0) flatSurroundings.stale flatPoly flatPoly rfl covers id slot live inside
  rw [word.1, dot_reduced smallParams_generated chain flatDigits_reduced (tiltedKey_reduced .c1) live
    inside, tilted_residue live]

/-- The quotients of moved words are not the moved quotients of the words. -/
theorem tilted_quotients_differ {moved product : RNSPoly}
    (canonicalMoved : moved.Canonical smallParams) (extendedMoved : moved.Extended smallParams)
    (canonical : product.Canonical smallParams) (extended : product.Extended smallParams)
    (wordsMoved : ∀ id slot, smallParams.Live 0 id → slot < smallParams.N →
      moved.word smallParams id slot =
        smallDigits.operand tiltedDigits 0 id (automorph_slot 7 5 slot))
    (words : ∀ id slot, smallParams.Live 0 id → slot < smallParams.N →
      product.word smallParams id slot = smallDigits.operand tiltedDigits 0 id slot) :
    ¬∀ slot, slot < smallParams.N →
      moddown_fusion (SetupConstants smallParams) .shoup 0 (moved.limb 0)
          ((SetupConstants smallParams).NTT 0 (smallParams.lifted true moved)) slot =
        moddown_fusion (SetupConstants smallParams) .shoup 0 (product.limb 0)
          ((SetupConstants smallParams).NTT 0 (smallParams.lifted true product))
          (automorph_slot 7 5 slot) := by
  intro same
  have chain : 0 < smallParams.L := by decide
  have first : 0 < smallParams.L + smallParams.K := by decide
  have last : 2 < smallParams.L + smallParams.K := by decide
  have regular : smallParams.Live 0 0 := Or.inl (Nat.le_refl 0)
  have liftMoved : ∀ i, i < smallParams.N → smallParams.lifted true moved i =
      (SetupConstants smallParams).coefs 130 2 i := by
    intro i below
    apply small_lifted_coefs canonicalMoved extendedMoved _ below
    intro slot inside
    rw [wordsMoved 2 slot small_live_special inside, tilted_operand small_live_special,
      if_neg two_ne_zero, tilted_moved inside last]
  have liftProduct : ∀ i, i < smallParams.N → smallParams.lifted true product i =
      (SetupConstants smallParams).coefs 26 2 i := by
    intro i below
    apply small_lifted_coefs canonical extended _ below
    intro slot inside
    rw [words 2 slot small_live_special inside, tilted_operand small_live_special,
      if_neg two_ne_zero]
  have power : (SetupConstants smallParams).coefs 26 2 = (SetupConstants smallParams).coefs 26 0 :=
    rfl
  apply turned_differ
  intro slot inside
  have source : automorph_slot 7 5 slot < smallParams.N :=
    automorph_slot_lt (show smallParams.logN ≤ 31 by decide) 5 slot
  -- The words that are divided agree, and so do their quotients, so the lifts agree as well.
  have divided : moved.limb 0 slot = product.limb 0 (automorph_slot 7 5 slot) :=
    (wordsMoved 0 slot regular inside).trans (words 0 _ regular source).symm
  have lifts := moddown_fusion_cancel smallParams_generated .shoup chain
    (NTT_lifted_lt smallParams_generated true chain moved slot)
    (NTT_lifted_lt smallParams_generated true chain product (automorph_slot 7 5 slot))
    (canonicalMoved.limb 0 (Nat.zero_le _) slot inside) divided (same slot inside)
  calc (SetupConstants smallParams).NTT 0 ((SetupConstants smallParams).coefs 130 2) slot
      = (SetupConstants smallParams).NTT 0 (smallParams.lifted true moved) slot :=
        (smallParams_generated.NTT_congr (fun i below => congrArg Nat.cast (liftMoved i below))
          inside).symm
    _ = (SetupConstants smallParams).NTT 0 (smallParams.lifted true product)
          (automorph_slot 7 5 slot) := lifts
    _ = (SetupConstants smallParams).NTT 0 ((SetupConstants smallParams).coefs 26 2)
          (automorph_slot 7 5 slot) :=
        smallParams_generated.NTT_congr (fun i below => congrArg Nat.cast (liftProduct i below)) source
    _ = (SetupConstants smallParams).NTT 0 ((SetupConstants smallParams).coefs 26 0)
          (automorph_slot 7 5 slot) := by rw [power]
    _ = (SetupConstants smallParams).NTT 0 ((SetupConstants smallParams).coefs 130 0) slot :=
        tilted_moved inside first

/-- The two paths leave different words when their results leave the extended basis. -/
theorem hoistedRotations_lowered_differ :
    ∃ fused unfused,
      rotate_hoisted smallDigits (SetupConstants smallParams) flatSurroundings
          (fun _ => some tiltedKey) false true ⟨flatPoly, flatPoly, 64⟩ (fun _ _ _ => 1) [1]
          (fun _ _ => flatPoly) = some [fused] ∧
        rotate_hoisted smallDigits (SetupConstants smallParams) flatSurroundings
          (fun _ => some tiltedKey) false false ⟨flatPoly, flatPoly, 64⟩ (fun _ _ _ => 1) [1]
          (fun _ _ => flatPoly) = some [unfused] ∧
        ∃ slot, slot < smallParams.N ∧ (fused .c1).limb 0 slot ≠ (unfused .c1).limb 0 slot := by
  have chain : 0 < smallParams.L := by decide
  have allocated : ∀ poly ∈ [flatPoly, flatPoly],
      poly.specialLimbs = 0 ∨ poly.specialLimbs = smallParams.K := by
    simp [flatPoly_canonical.allocated]
  obtain ⟨unfused, ranUnfused, wordsUnfused⟩ := @rotateUnfused_lowered smallParams
    smallParams_generated (by decide) smallDigits 0 chain flatDigits flatDigits_reduced tiltedKey
    tiltedKey_reduced flatSurroundings 0
    (grow (SetupConstants smallParams) false 0 (fun _ _ => flatPoly) 0) (fun _ => rfl) allocated
    flatPoly (Nat.le_refl 0) rfl (flatSurroundings_complete.dot 0) (fun _ _ => List.mem_range) 1 5
    undoes_one
  obtain ⟨shapes, wordsFused⟩ := @tilted_fused (fun i component =>
    if [(1 : Int)].getD i 0 = 0 then copyResult (SetupConstants smallParams) false
      ⟨flatPoly, flatPoly, 64⟩ (grow (SetupConstants smallParams) false 0 (fun _ _ => flatPoly) i)
      component
    else grow (SetupConstants smallParams) false 0 (fun _ _ => flatPoly) i component)
    (fun _ => rfl) (fun _ => Or.inr rfl)
  obtain ⟨fused, ranFused, shaped⟩ := modDown_words smallParams_generated flatSurroundings 0
    (fun component => (shapes component).2.1) (fun component => (shapes component).2.2)
  have fusedCall : rotate_hoisted smallDigits (SetupConstants smallParams) flatSurroundings
      (fun _ => some tiltedKey) false true ⟨flatPoly, flatPoly, 64⟩ (fun _ _ _ => 1) [1]
      (fun _ _ => flatPoly) = some [fused] :=
    congrArg (Option.map fun result => [result]) ranFused
  have unfusedCall : rotate_hoisted smallDigits (SetupConstants smallParams) flatSurroundings
      (fun _ => some tiltedKey) false false ⟨flatPoly, flatPoly, 64⟩ (fun _ _ _ => 1) [1]
      (fun _ _ => flatPoly) = some [unfused] :=
    congrArg (Option.map fun result => [result]) ranUnfused
  refine ⟨fused, unfused, fusedCall, unfusedCall, ?_⟩
  by_contra same
  push Not at same
  obtain ⟨⟨canonical, extended⟩, wordsProduct⟩ := tilted_product
  obtain ⟨level, canonicalFused, extendedFused⟩ := shapes .c1
  apply tilted_quotients_differ canonicalFused extendedFused canonical extended wordsFused wordsProduct
  intro slot inside
  have words := same slot inside
  rwa [wordsUnfused 0 (Nat.le_refl 0) slot inside,
    (shaped .c1).2.2 0 (Nat.zero_le _) slot inside] at words

end Fideslib.KeySwitch
