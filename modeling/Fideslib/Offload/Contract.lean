/-
This file proves for which operations and ciphertexts an offload is transparent.
-/

import Fideslib.CKKS.ExtendedBasis
import Fideslib.Offload.MutableForms
import Fideslib.Offload.Shadows

namespace Fideslib.Offload

open CKKS

variable {F : Type} [Mul F] [Div F] [One F] {cc : ContextData F}

namespace Operation

/-- A mutable form adjusts its receiver before it calls the method that restores residency. -/
def isMutableForm : Operation cc → Bool
  | addMutable .. | subMutable .. | multMutable .. => true
  | addPtMutable .. | subPtMutable .. | multPtMutable .. => true
  | _ => false

/-- The operation restores residency before it touches the polynomials, or the effect that the
reload discards is none. -/
def Sheltered : Operation cc → Ciphertext cc → Prop
  | entered _, _ => True
  | rescale, _ => True
  | negate, self => ∀ id : Nat, (id : Int) ≤ self.getLevel →
      self.c0.limb id = 0 ∧ self.c1.limb id = 0
  | raiseDegreeToLevel _, _ => False
  | keySwitchSparse ksk, self =>
      if cc.asserts then ksk.keyID = self.keyID → self.getLevel ≠ 0
      else ∀ id : Nat, (id : Int) ≤ self.getLevel →
        ksk.b self.c1.limb id = 0 ∧ ksk.a self.c1.limb id = self.c1.limb id
  | adjustScaleAndLevel scaleDegree level _, self =>
      ¬Raises cc self.NoiseLevel self.getLevel scaleDegree level
  | adjustForAddOrSub b, self | adjustForMult b, self | addMutable _ b, self
  | subMutable _ b, self | multMutable _ _ b _, self =>
      ¬Raises cc self.NoiseLevel self.getLevel b.NoiseLevel b.getLevel
  | adjustCiphertextToPlaintext b, self | addPtMutable _ b, self | subPtMutable _ b, self =>
      ¬Raises cc self.NoiseLevel self.getLevel b.NoiseLevel b.c0.level
  | multPtMutable _ b, self =>
      self.NoiseLevel = 2 ∨ ¬Raises cc self.NoiseLevel self.getLevel b.NoiseLevel b.c0.level
  | multScalarTo .., _ => True
  | onCopy .., _ => True

end Operation

omit [Mul F] [Div F] [One F] in
/-- The two adjustments answer one flag. -/
theorem Alike.flagged {settled : Bool → Prop} {away here : Object cc}
    {first second : Except Failure (Object cc × Bool)} (shadows : Object.Shadows away here)
    (steps : Alike settled away here first second) :
    SameOutcome (Operation.flagged first) (Operation.flagged second) := by
  apply steps.andThen
  intro ok _
  exact SameOutcome.ok shadows.current (.flag ok)

namespace Object

variable {away here : Object cc}

theorem Shadows.adjustForMult (shadows : Shadows away here) {b : Ciphertext cc}
    (low : ¬Raises cc here.NoiseLevel here.getLevel b.NoiseLevel b.getLevel) :
    SameOutcome (Operation.flagged (away.adjustForMult b))
      (Operation.flagged (here.adjustForMult b)) := by
  rw [Object.adjustForMult, Object.adjustForMult, Operation.flagged, Operation.flagged, bind_assoc,
    bind_assoc]
  apply (shadows.adjustForAddOrSub b low).andThen
  intro ok _
  refine SameOutcome.ok ?_ _
  rw [Object.reduceDegree, Object.reduceDegree, shadows.NoiseLevel, shadows.rescaleInternal]
  split_ifs
  · rfl
  · exact shadows.current

end Object

omit [Mul F] [Div F] [One F] in
/-- A freed polynomial has no limb that a map could change. -/
theorem freeGPU_mapLimbs (poly : RNSPoly cc)
    (change : (id : Nat) → (Fin cc.N → ZMod (cc.prime id)) → Fin cc.N → ZMod (cc.prime id)) :
    (Poly.freeGPU poly).mapLimbs change = Poly.freeGPU poly := by
  have limbs : ((Poly.freeGPU poly).mapLimbs change).limb = (Poly.freeGPU poly).limb := by
    funext id
    exact if_neg (by simp only [Poly.freeGPU]; omega)
  rw [RNSPoly.mapLimbs] at limbs ⊢
  simp only at limbs
  rw [limbs]

variable {ciphertext : Ciphertext cc} {away : Object cc}

omit [Mul F] [Div F] [One F] in
/-- A product with freed polynomials changes nothing. -/
theorem scalePolys_away (offloaded : (ofCiphertext ciphertext).offload = some away)
    (vector : (id : Nat) → ZMod (cc.prime id)) : away.scalePolys vector = away := by
  obtain ⟨_, _, raw, _, same⟩ := Object.offload_eq rfl offloaded
  subst same
  simp only [Object.scalePolys, RNSPoly.multScalar, freeGPU_mapLimbs]

omit [Div F] [One F] in
/-- The reload forgets a raise. -/
theorem raise_away (offloaded : (ofCiphertext ciphertext).offload = some away) (level : Int) :
    (away.raiseDegreeToLevel level).current = live ciphertext ∧
      (away.raiseDegreeToLevel level).getLevel = ciphertext.getLevel := by
  have shadows := Object.offload_shadows rfl offloaded
  rw [Object.raiseDegreeToLevel, scalePolys_away offloaded]
  constructor
  · exact Object.snapshot_current rfl offloaded rfl
  · exact shadows.getLevel

omit [Div F] [One F] in
theorem raise_here (level : Int) :
    (ofCiphertext ciphertext).raiseDegreeToLevel level =
      ofCiphertext (ciphertext.raiseDegreeToLevel level) := rfl

/-- Under this condition both adjustments raise the degree, and a drop may follow. -/
theorem raises_cases (offloaded : (ofCiphertext ciphertext).offload = some away)
    {scaleDegree level : Int}
    (raises : Raises cc ciphertext.NoiseLevel ciphertext.getLevel scaleDegree level)
    (scaling_factor : F) :
    (away.adjustScaleAndLevel scaleDegree level scaling_factor =
        .ok (away.raiseDegreeToLevel level, true) ∧
      (ofCiphertext ciphertext).adjustScaleAndLevel scaleDegree level scaling_factor =
        .ok (ofCiphertext (ciphertext.raiseDegreeToLevel level), true)) ∨
    (ciphertext.NoiseLevel ≠ 2 ∧ ciphertext.getLevel > level ∧
      away.adjustScaleAndLevel scaleDegree level scaling_factor =
        .ok ((away.raiseDegreeToLevel level).dropPolys level, true) ∧
      (ofCiphertext ciphertext).adjustScaleAndLevel scaleDegree level scaling_factor =
        .ok ((ofCiphertext (ciphertext.raiseDegreeToLevel level)).dropPolys level, true)) := by
  obtain ⟨fixedAuto, differs, reached⟩ := raises
  have shadows := Object.offload_shadows rfl offloaded
  have degree : away.NoiseLevel = ciphertext.NoiseLevel := shadows.NoiseLevel
  have levels : away.getLevel = ciphertext.getLevel := shadows.getLevel
  have own : (ofCiphertext ciphertext).getLevel = ciphertext.getLevel := rfl
  have ownDegree : (ofCiphertext ciphertext).NoiseLevel = ciphertext.NoiseLevel := rfl
  have equalDegree : ¬((cc.rescaleTechnique = .fixedManual ∨ cc.rescaleTechnique = .fixedAuto) ∧
      ciphertext.NoiseLevel = scaleDegree) := fun both => differs both.2
  rcases reached with ⟨equal, lower⟩ | ⟨above, other⟩
  · refine .inl ⟨?_, ?_⟩
    · rw [Object.adjustScaleAndLevel]
      simp only [degree, levels, if_neg equalDegree, if_pos fixedAuto, if_pos equal, if_pos lower]
    · rw [Object.adjustScaleAndLevel]
      simp only [ownDegree, own, if_neg equalDegree, if_pos fixedAuto, if_pos equal, if_pos lower,
        raise_here]
  · have notEqual : ¬ciphertext.getLevel = level := by omega
    have raisedAway : (away.raiseDegreeToLevel level).getLevel > level := by
      rw [(raise_away offloaded level).2]
      exact above
    have raisedHere : (ofCiphertext (ciphertext.raiseDegreeToLevel level)).getLevel > level :=
      above
    refine .inr ⟨other, above, ?_, ?_⟩
    · rw [Object.adjustScaleAndLevel]
      simp only [degree, levels, if_neg equalDegree, if_pos fixedAuto, if_neg notEqual,
        if_pos above, if_neg other, if_pos raisedAway]
    · rw [Object.adjustScaleAndLevel]
      simp only [ownDegree, own, if_neg equalDegree, if_pos fixedAuto, if_neg notEqual,
        if_pos above, if_neg other, raise_here, if_pos raisedHere]

omit [Mul F] [Div F] [One F] in
theorem dropPolys_degree (self : Object cc) (level : Int) :
    (self.dropPolys level).current.NoiseLevel = self.current.NoiseLevel := by
  change (if self.current.getLevel > level then self.current.dropPolys level
      else self.current).NoiseLevel = self.current.NoiseLevel
  split_ifs <;> rfl

/-- A lost raise leaves another degree than the raise of the resident ciphertext. -/
theorem raises_differ (offloaded : (ofCiphertext ciphertext).offload = some away)
    {scaleDegree level : Int}
    (raises : Raises cc ciphertext.NoiseLevel ciphertext.getLevel scaleDegree level)
    (scaling_factor : F) :
    ¬SameOutcome (Operation.flagged (away.adjustScaleAndLevel scaleDegree level scaling_factor))
      (Operation.flagged
        ((ofCiphertext ciphertext).adjustScaleAndLevel scaleDegree level scaling_factor)) := by
  intro same
  have lost := (raise_away offloaded level).1
  have degree : ciphertext.NoiseLevel = ciphertext.NoiseLevel + 1 := by
    rcases raises_cases offloaded raises scaling_factor with
      ⟨first, second⟩ | ⟨_, _, first, second⟩
    · rw [first, second] at same
      have equal := congrArg Ciphertext.NoiseLevel (SameOutcome.ok_iff.mp same).1
      rw [lost] at equal
      exact equal
    · rw [first, second] at same
      have equal := congrArg Ciphertext.NoiseLevel (SameOutcome.ok_iff.mp same).1
      rw [dropPolys_degree, dropPolys_degree, lost] at equal
      exact equal
  omega

omit [Mul F] [One F] in
theorem reduceDegree_degree (self : Object cc) :
    self.reduceDegree.current.NoiseLevel =
      if self.NoiseLevel = 2 then self.current.NoiseLevel - 1 else self.current.NoiseLevel := by
  rw [Object.reduceDegree]
  split_ifs <;> rfl

omit [Mul F] [One F] in
/-- A rescale drops at least one level. -/
theorem reduceDegree_level (self : Object cc) (degree : self.NoiseLevel = 2) :
    self.reduceDegree.current.getLevel < self.current.getLevel := by
  rw [Object.reduceDegree, if_pos degree]
  change RNSPoly.rescaledLevel cc self.current.c0.level < self.current.c0.level
  rw [RNSPoly.rescaledLevel]
  split_ifs <;> omega

omit [Mul F] [Div F] [One F] in
theorem dropPolys_level (self : Object cc) {level : Int} (above : self.current.getLevel > level) :
    (self.dropPolys level).current.getLevel = level := by
  change (if self.current.getLevel > level then self.current.dropPolys level
      else self.current).getLevel = level
  rw [if_pos above]
  exact Ciphertext.dropPolys_level level above.le

/-- Under fixed automatic scaling the operands are adjusted by level and degree. -/
theorem adjustForAddOrSub_fixedAuto (technique : cc.rescaleTechnique = .fixedAuto)
    (self : Object cc) (b : Ciphertext cc) :
    self.adjustForAddOrSub b = self.adjustScaleAndLevel b.NoiseLevel b.getLevel b.NoiseFactor := by
  have notManual : ¬cc.rescaleTechnique = .fixedManual := by
    rw [technique]
    decide
  have automatic : cc.rescaleTechnique.isAutomatic := by
    rw [technique]
    decide
  rw [Object.adjustForAddOrSub, if_neg notManual, if_pos automatic]

theorem adjustCiphertextToPlaintext_fixedAuto (technique : cc.rescaleTechnique = .fixedAuto)
    (self : Object cc) (b : Plaintext cc) :
    self.adjustCiphertextToPlaintext b =
      self.adjustScaleAndLevel b.NoiseLevel b.c0.level b.NoiseFactor := by
  have automatic : cc.rescaleTechnique.isAutomatic := by
    rw [technique]
    decide
  rw [Object.adjustCiphertextToPlaintext, if_pos automatic]

/-- The multiplication loses a raise too, and the degree or the level shows it. -/
theorem raises_differ_mult (offloaded : (ofCiphertext ciphertext).offload = some away)
    {b : Ciphertext cc}
    (raises : Raises cc ciphertext.NoiseLevel ciphertext.getLevel b.NoiseLevel b.getLevel) :
    ¬SameOutcome (Operation.flagged (away.adjustForMult b))
      (Operation.flagged ((ofCiphertext ciphertext).adjustForMult b)) := by
  intro same
  have shadows := Object.offload_shadows rfl offloaded
  have lost := (raise_away offloaded b.getLevel).1
  have degree : (away.raiseDegreeToLevel b.getLevel).current.NoiseLevel = ciphertext.NoiseLevel := by
    rw [lost]
    rfl
  have field : (away.raiseDegreeToLevel b.getLevel).NoiseLevel = ciphertext.NoiseLevel + 1 :=
    congrArg (· + 1) shadows.NoiseLevel
  rw [Object.adjustForMult, Object.adjustForMult, adjustForAddOrSub_fixedAuto raises.1,
    adjustForAddOrSub_fixedAuto raises.1] at same
  rcases raises_cases offloaded raises b.NoiseFactor with
    ⟨first, second⟩ | ⟨other, above, first, second⟩
  · rw [first, second] at same
    have equal := congrArg Ciphertext.NoiseLevel (SameOutcome.ok_iff.mp same).1
    rw [reduceDegree_degree, reduceDegree_degree, degree, field] at equal
    change (if ciphertext.NoiseLevel + 1 = 2 then ciphertext.NoiseLevel - 1
      else ciphertext.NoiseLevel) = (if ciphertext.NoiseLevel + 1 = 2 then
        ciphertext.NoiseLevel + 1 - 1 else ciphertext.NoiseLevel + 1) at equal
    split_ifs at equal <;> omega
  · rw [first, second] at same
    have contents := (SameOutcome.ok_iff.mp same).1
    have equal := congrArg Ciphertext.NoiseLevel contents
    have levels := congrArg Ciphertext.getLevel contents
    have awayDegree : ((away.raiseDegreeToLevel b.getLevel).dropPolys b.getLevel).NoiseLevel =
        ciphertext.NoiseLevel := (dropPolys_degree _ _).trans degree
    have hereDegree : ((ofCiphertext (ciphertext.raiseDegreeToLevel b.getLevel)).dropPolys
        b.getLevel).NoiseLevel = ciphertext.NoiseLevel + 1 := dropPolys_degree _ _
    have awayLevel : ((away.raiseDegreeToLevel b.getLevel).dropPolys
        b.getLevel).current.getLevel = b.getLevel := by
      apply dropPolys_level
      rw [lost]
      exact above
    have hereLevel : ((ofCiphertext (ciphertext.raiseDegreeToLevel b.getLevel)).dropPolys
        b.getLevel).current.getLevel = b.getLevel := dropPolys_level _ above
    have unreduced : ((away.raiseDegreeToLevel b.getLevel).dropPolys b.getLevel).reduceDegree =
        (away.raiseDegreeToLevel b.getLevel).dropPolys b.getLevel := by
      rw [Object.reduceDegree, awayDegree, if_neg other]
    rw [unreduced, awayLevel] at levels
    rw [unreduced, dropPolys_degree, degree, reduceDegree_degree, hereDegree,
      dropPolys_degree] at equal
    by_cases reduced : ciphertext.NoiseLevel + 1 = 2
    · have fewer := reduceDegree_level _ (hereDegree.trans reduced)
      omega
    · rw [if_neg reduced] at equal
      change ciphertext.NoiseLevel = ciphertext.NoiseLevel + 1 at equal
      omega

omit [Mul F] [Div F] [One F] in
/-- A map leaves a polynomial alone when it fixes the limbs up to the level. -/
theorem mapLimbs_live_iff (poly : RNSPoly cc)
    (change : (id : Nat) → (Fin cc.N → ZMod (cc.prime id)) → Fin cc.N → ZMod (cc.prime id)) :
    Poly.live poly = Poly.live (poly.mapLimbs change) ↔
      ∀ id : Nat, (id : Int) ≤ poly.level → change id (poly.limb id) = poly.limb id := by
  constructor
  · intro same id inside
    have changed := Poly.live_limb same inside
    simp only [RNSPoly.mapLimbs, inside, if_true] at changed
    exact changed.symm
  · intro fixed
    apply Poly.live_congr
    · rfl
    · intro id inside
      change (id : Int) ≤ poly.level at inside
      simp only [RNSPoly.mapLimbs, inside, if_true, fixed id inside]

omit [Mul F] [Div F] [One F] in
/-- A change of the limbs that an offloaded ciphertext loses does not show when it fixes them. -/
theorem lost_iff (offloaded : (ofCiphertext ciphertext).offload = some away)
    (first second : (id : Nat) → (Fin cc.N → ZMod (cc.prime id)) → Fin cc.N → ZMod (cc.prime id)) :
    SameOutcome (.ok (away, .nothing))
        (.ok (ofCiphertext { ciphertext with
          c0 := ciphertext.c0.mapLimbs first
          c1 := ciphertext.c1.mapLimbs second
          sameLevel := ciphertext.sameLevel }, .nothing)) ↔
      ∀ id : Nat, (id : Int) ≤ ciphertext.getLevel →
        first id (ciphertext.c0.limb id) = ciphertext.c0.limb id ∧
          second id (ciphertext.c1.limb id) = ciphertext.c1.limb id := by
  have contents : away.current = live ciphertext := Object.offload_current offloaded
  have level : ciphertext.c1.level = ciphertext.getLevel := ciphertext.sameLevel
  rw [SameOutcome.ok_iff, contents]
  constructor
  · rintro ⟨same, -⟩ id inside
    exact ⟨(mapLimbs_live_iff _ _).mp (congrArg Ciphertext.c0 same) id inside,
      (mapLimbs_live_iff _ _).mp (congrArg Ciphertext.c1 same) id (level ▸ inside)⟩
  · intro fixed
    have left := (mapLimbs_live_iff ciphertext.c0 first).mpr fun id inside => (fixed id inside).1
    have right := (mapLimbs_live_iff ciphertext.c1 second).mpr fun id inside =>
      (fixed id (level ▸ inside)).2
    exact ⟨Ciphertext.ext left right rfl rfl rfl rfl, rfl⟩

omit [Mul F] [Div F] [One F] in
/-- A negation fixes the zero limb only. -/
theorem negate_fixes_iff {id : Nat} (limb : Fin cc.N → ZMod (cc.prime id)) :
    (fun k => limb k * ExtendedPoly.negOne id) = limb ↔ limb = 0 := by
  constructor
  · intro fixed
    funext k
    have negated := congrFun fixed k
    simp only [ExtendedPoly.negOne_eq, mul_neg, mul_one] at negated
    rcases (ZMod.neg_eq_self_iff _).mp negated with zero | half
    · exact zero
    · have odd := cc.prime_odd id
      omega
  · rintro rfl
    funext k
    exact zero_mul _

theorem negate_transparent_iff (offloaded : (ofCiphertext ciphertext).offload = some away) :
    SameOutcome (Operation.negate.run away) (Operation.negate.run (ofCiphertext ciphertext)) ↔
      Operation.negate.Sheltered ciphertext := by
  have unchanged : away.negate = away := scalePolys_away offloaded _
  rw [Operation.run, Operation.run, unchanged]
  refine (lost_iff offloaded (fun id limb k => limb k * ExtendedPoly.negOne id)
    (fun id limb k => limb k * ExtendedPoly.negOne id)).trans ?_
  simp only [negate_fixes_iff, Operation.Sheltered]

/-- Without assertions the switch of a freed ciphertext changes nothing, and with them its extension
fails at the level zero. -/
theorem keySwitchSparse_transparent_iff
    (offloaded : (ofCiphertext ciphertext).offload = some away) (ksk : Object.SparseKey cc) :
    SameOutcome ((Operation.keySwitchSparse ksk).run away)
        ((Operation.keySwitchSparse ksk).run (ofCiphertext ciphertext)) ↔
      (Operation.keySwitchSparse ksk).Sheltered ciphertext := by
  have shadows := Object.offload_shadows rfl offloaded
  have level : away.getLevel = ciphertext.getLevel := shadows.getLevel
  have keyID : away.keyID = ciphertext.keyID := shadows.keyID
  have freed : away.c1.level = -1 := by
    obtain ⟨_, _, raw, _, same⟩ := Object.offload_eq rfl offloaded
    rw [same]
    rfl
  have own : (ofCiphertext ciphertext).getLevel = ciphertext.getLevel := rfl
  have ownC1 : (ofCiphertext ciphertext).c1.level = ciphertext.getLevel := ciphertext.sameLevel
  rw [Operation.run, Operation.run, Object.keySwitchSparse, Object.keySwitchSparse]
  cases on : cc.asserts with
  | false =>
      have unchecked : ∀ (condition : Prop) [Decidable condition] (text : String),
          cc.check condition text = .ok () := fun condition _ text =>
        ContextData.check_eq_ok_iff.mpr fun asserted => absurd asserted (by simp [on])
      obtain ⟨_, _, raw, _, same⟩ := Object.offload_eq rfl offloaded
      subst same
      simp only [unchecked, ok_bind, freeGPU_mapLimbs, Operation.Sheltered, on,
        Bool.false_eq_true, if_false]
      refine (lost_iff offloaded (fun id limb => limb + ksk.b ciphertext.c1.limb id)
        (fun id _ => ksk.a ciphertext.c1.limb id)).trans ?_
      simp only [add_eq_left]
  | true =>
      have checked : ∀ (condition : Prop) [Decidable condition] (text : String),
          cc.check condition text = if condition then .ok () else .error (.assertion text) := by
        intro condition _ text
        by_cases holds : condition <;> simp [ContextData.check, on, holds]
      have ownKeyID : (ofCiphertext ciphertext).keyID = ciphertext.keyID := rfl
      rw [Operation.Sheltered, if_pos on]
      simp only [checked, level, keyID, own, ownKeyID, freed, ownC1]
      by_cases tagged : ksk.keyID = ciphertext.keyID
      · by_cases bottom : ciphertext.getLevel = 0
        · simp only [tagged, bottom, if_true, ok_bind]
          constructor
          · intro same
            cases same
          · intro sheltered
            exact absurd rfl (sheltered trivial)
        · simp only [tagged, bottom, if_true, if_false, ok_bind]
          exact ⟨fun _ _ => bottom, fun _ => SameOutcome.refl _⟩
      · simp only [tagged, if_false]
        exact ⟨fun _ => False.elim, fun _ => SameOutcome.refl _⟩

/-- An offload does not show when the operation restores residency before it touches the
polynomials. -/
theorem sheltered_transparent (offloaded : (ofCiphertext ciphertext).offload = some away)
    (operation : Operation cc) (sheltered : operation.Sheltered ciphertext) :
    SameOutcome (operation.run away) (operation.run (ofCiphertext ciphertext)) := by
  have shadows : Object.Shadows away (ofCiphertext ciphertext) :=
    Object.offload_shadows rfl offloaded
  have present : away.state ≠ none := by
    obtain ⟨_, _, raw, _, same⟩ := Object.offload_eq rfl offloaded
    rw [same]
    exact Option.some_ne_none _
  cases operation with
  | entered method =>
      rw [Operation.run, Operation.run, entered, entered, shadows.current]
      exact SameOutcome.refl _
  | rescale =>
      rw [Operation.run, Operation.run, shadows.rescaleInternal]
      split_ifs
      · exact .ok shadows.current .nothing
      · exact SameOutcome.refl _
  | negate => exact (negate_transparent_iff offloaded).mpr sheltered
  | raiseDegreeToLevel targetLevel => exact absurd sheltered id
  | keySwitchSparse ksk =>
      exact (keySwitchSparse_transparent_iff offloaded ksk).mpr sheltered
  | adjustScaleAndLevel scaleDegree level scaling_factor =>
      exact (shadows.adjustScaleAndLevel scaleDegree level scaling_factor sheltered).flagged shadows
  | adjustForAddOrSub b => exact (shadows.adjustForAddOrSub b sheltered).flagged shadows
  | adjustForMult b => exact shadows.adjustForMult sheltered
  | adjustCiphertextToPlaintext b =>
      exact (shadows.adjustCiphertextToPlaintext b sheltered).flagged shadows
  | addMutable calls b => exact shadows.addMutable calls sheltered
  | subMutable calls b => exact shadows.subMutable present calls sheltered
  | multMutable keys calls b rescale =>
      exact shadows.multMutable present keys calls rescale sheltered
  | addPtMutable calls b => exact shadows.withBothAdjustedPt _ _ sheltered
  | subPtMutable calls b => exact shadows.withBothAdjustedPt _ _ sheltered
  | multPtMutable calls b => exact shadows.multPtMutable calls sheltered
  | multScalarTo whole BuildConstant2 target_level =>
      rw [Operation.run, Operation.run, shadows.multScalarTo]
      exact SameOutcome.refl _
  | onCopy other operation =>
      rw [Operation.run, Operation.run, entered, entered]
      exact SameOutcome.refl _

/-- An operation that is not a mutable form only agrees under this condition. -/
theorem transparent_sheltered (offloaded : (ofCiphertext ciphertext).offload = some away)
    (operation : Operation cc) (direct : operation.isMutableForm = false)
    (same : SameOutcome (operation.run away) (operation.run (ofCiphertext ciphertext))) :
    operation.Sheltered ciphertext := by
  cases operation with
  | entered method => exact trivial
  | rescale => exact trivial
  | negate => exact (negate_transparent_iff offloaded).mp same
  | raiseDegreeToLevel targetLevel =>
      have equal := congrArg Ciphertext.NoiseLevel (SameOutcome.ok_iff.mp same).1
      rw [(raise_away offloaded targetLevel).1] at equal
      have degree : ciphertext.NoiseLevel = ciphertext.NoiseLevel + 1 := equal
      omega
  | keySwitchSparse ksk =>
      exact (keySwitchSparse_transparent_iff offloaded ksk).mp same
  | adjustScaleAndLevel scaleDegree level scaling_factor =>
      exact fun raises => raises_differ offloaded raises scaling_factor same
  | adjustForAddOrSub b =>
      intro raises
      rw [Operation.run, Operation.run, adjustForAddOrSub_fixedAuto raises.1,
        adjustForAddOrSub_fixedAuto raises.1] at same
      exact raises_differ offloaded raises b.NoiseFactor same
  | adjustForMult b => exact fun raises => raises_differ_mult offloaded raises same
  | adjustCiphertextToPlaintext b =>
      intro raises
      rw [Operation.run, Operation.run, adjustCiphertextToPlaintext_fixedAuto raises.1,
        adjustCiphertextToPlaintext_fixedAuto raises.1] at same
      exact raises_differ offloaded raises b.NoiseFactor same
  | addMutable calls b => cases direct
  | subMutable calls b => cases direct
  | multMutable keys calls b rescale => cases direct
  | addPtMutable calls b => cases direct
  | subPtMutable calls b => cases direct
  | multPtMutable calls b => cases direct
  | multScalarTo whole BuildConstant2 target_level => exact trivial
  | onCopy other operation => exact trivial

/-- An offload followed by a reload is the identity, and an operation cannot tell the offloaded
ciphertext from the resident one when it restores residency before it touches the polynomials. For
every operation but the mutable forms this is the only case. -/
theorem offload_transparent_iff (operation : Operation cc) (ciphertext : Ciphertext cc)
    (away : Object cc) (offloaded : (ofCiphertext ciphertext).offload = some away) :
    away.ensureResident.state = none ∧ away.ensureResident.current = live ciphertext ∧
      away.getLevel = ciphertext.getLevel ∧
      (operation.Sheltered ciphertext →
        SameOutcome (operation.run away) (operation.run (ofCiphertext ciphertext))) ∧
      (operation.isMutableForm = false →
        SameOutcome (operation.run away) (operation.run (ofCiphertext ciphertext)) →
        operation.Sheltered ciphertext) := by
  have resident : away.ensureResident.state = none := away.ensureResident_state
  have restored : away.ensureResident.current = away.current := by
    rw [Object.current_of_resident resident]
    rfl
  have contents : away.ensureResident.current = live ciphertext :=
    restored.trans (Object.offload_current offloaded)
  have level : away.getLevel = ciphertext.getLevel :=
    (Object.offload_shadows rfl offloaded).getLevel
  exact ⟨resident, contents, level, sheltered_transparent offloaded operation,
    transparent_sheltered offloaded operation⟩

/-- This ciphertext holds ones at the bottom level. -/
def ones : Ciphertext (Ciphertext.smallContext .fixedAuto true) where
  c0 := ⟨0, fun _ _ => 1⟩
  c1 := ⟨0, fun _ _ => 1⟩
  sameLevel := rfl
  NoiseLevel := 1
  NoiseFactor := 3
  slots := 1
  keyID := "owner"

/-- The snapshot of the small ciphertext is taken. -/
theorem ones_offloads : ∃ away, (ofCiphertext ones).offload = some away :=
  ⟨_, rfl⟩

/-- The sum in place cannot tell the offloaded ones from the resident ones, but the negation can. -/
theorem offload_transparent_iff_ones :
    ∃ away, (ofCiphertext ones).offload = some away ∧ away.ensureResident.current = live ones ∧
      SameOutcome ((Operation.addMutable 2 ones).run away)
        ((Operation.addMutable 2 ones).run (ofCiphertext ones)) ∧
      ¬SameOutcome (Operation.negate.run away) (Operation.negate.run (ofCiphertext ones)) := by
  obtain ⟨away, offloaded⟩ := ones_offloads
  have sum := offload_transparent_iff (Operation.addMutable 2 ones) ones away offloaded
  have negation := offload_transparent_iff Operation.negate ones away offloaded
  refine ⟨away, offloaded, sum.2.1, sum.2.2.2.1 ?_, ?_⟩
  · change ¬Raises _ 1 0 1 0
    decide
  · intro same
    have zero := (negation.2.2.2.2 rfl same 0 (by decide)).1
    exact absurd (congrFun zero ⟨0, by decide⟩) (by decide)

/-- The negation of an offloaded ciphertext is lost. -/
theorem negate_offloaded_lost :
    ∃ away, (ofCiphertext ones).offload = some away ∧
      ¬SameOutcome (Operation.negate.run away) (Operation.negate.run (ofCiphertext ones)) := by
  obtain ⟨away, offloaded⟩ := ones_offloads
  refine ⟨away, offloaded, ?_⟩
  intro same
  have zero := ((negate_transparent_iff offloaded).mp same 0 (by decide)).1
  exact absurd (congrFun zero ⟨0, by decide⟩) (by decide)

end Fideslib.Offload
