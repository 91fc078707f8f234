/-
This file proves that the mutable forms treat an offloaded ciphertext like the resident one.
-/

import Fideslib.CKKS.MutableForms
import Fideslib.Offload.KeyTags
import Fideslib.Offload.Shadows

namespace Fideslib.Offload

open CKKS

variable {F : Type} {cc : ContextData F}

namespace Poly

variable {p q : RNSPoly cc}

theorem live_congr (level : p.level = q.level)
    (limb : ∀ id : Nat, (id : Int) ≤ q.level → p.limb id = q.limb id) : live p = live q := by
  simp only [live, level]
  congr 1
  funext id
  by_cases inside : (id : Int) ≤ q.level
  · simp only [inside, if_true, limb id inside]
  · simp only [inside, if_false]

theorem live_level (same : live p = live q) : p.level = q.level := (congrArg RNSPoly.level same :)

theorem live_limb (same : live p = live q) {id : Nat} (inside : (id : Int) ≤ q.level) :
    p.limb id = q.limb id := by
  have level : p.level = q.level := live_level same
  have limb : (live p).limb id = (live q).limb id := congrFun (congrArg RNSPoly.limb same) id
  simpa only [live, level, inside, if_true] using limb

/-- A difference with one subtrahend only reads the limbs up to the level. -/
theorem live_difference (same : live p = live q) (r : RNSPoly cc) :
    live
        { level := q.level
          limb := fun id => if (id : Int) ≤ q.level then p.limb id - r.limb id else p.limb id } =
      live
        { level := q.level
          limb := fun id =>
            if (id : Int) ≤ q.level then q.limb id - r.limb id else q.limb id } := by
  apply live_congr
  · rfl
  · intro id inside
    change (id : Int) ≤ q.level at inside
    simp only [inside, if_true, live_limb same inside]

end Poly

/-- A subtraction from operands of one level only reads the limbs up to that level. -/
theorem subPolys_live {x y b : Ciphertext cc} (same : live x = live y) (answer : Answer cc) :
    SameOutcome
      (do
        let difference ← x.subPolys b
        return (ofCiphertext (← difference.addMetadata difference b), answer))
      (do
        let difference ← y.subPolys b
        return (ofCiphertext (← difference.addMetadata difference b), answer)) := by
  obtain ⟨first, second, NoiseLevel, NoiseFactor, slots, keyID⟩ := Ciphertext.ext_iff.mp same
  change Poly.live x.c0 = Poly.live y.c0 at first
  change Poly.live x.c1 = Poly.live y.c1 at second
  change x.NoiseLevel = y.NoiseLevel at NoiseLevel
  change x.NoiseFactor = y.NoiseFactor at NoiseFactor
  change x.slots = y.slots at slots
  change x.keyID = y.keyID at keyID
  simp only [Ciphertext.subPolys, Ciphertext.addMetadata, bind_assoc, pure_bind,
    Ciphertext.getLevel, RNSPoly.sub, RNSPoly.mapLimbs, NoiseLevel, NoiseFactor, slots, keyID,
    Poly.live_level first, Poly.live_level second]
  refine SameOutcome.check (SameOutcome.check (SameOutcome.check ?_))
  have whole := Poly.live_difference first b.c0
  have other := Poly.live_difference second b.c1
  by_cases flexible : cc.rescaleTechnique.isFlexible
  · simp only [flexible, if_true, bind_assoc, pure_bind]
    refine SameOutcome.check (SameOutcome.check (SameOutcome.check ?_))
    refine SameOutcome.ok ?_ answer
    exact Ciphertext.ext whole other rfl rfl rfl rfl
  · simp only [flexible, Bool.false_eq_true, if_false, bind_assoc, pure_bind]
    refine SameOutcome.check (SameOutcome.check ?_)
    refine SameOutcome.ok ?_ answer
    exact Ciphertext.ext whole other rfl rfl rfl rfl

namespace Object

/-- A freed polynomial is already below the target, and the subtraction drops what it reads. -/
theorem dropLimbs_current (self : Object cc) (level : Int) (offloaded : self.state ≠ none) :
    (self.dropLimbs level).current = self.current := by
  cases present : self.state with
  | none => exact absurd present offloaded
  | some raw =>
      simp only [current, ensureResident, reload, dropLimbs, present, load, Poly.load,
        Poly.loadConvert, RNSPoly.dropToLevel]

/-- A ciphertext is dropped with the limbs that it has. -/
theorem live_dropPolys (self : Ciphertext cc) (level : Int) :
    live ((live self).dropPolys level) = live (self.dropPolys level) := by
  have poly : ∀ p : RNSPoly cc,
      Poly.live ((Poly.live p).dropToLevel level) = Poly.live (p.dropToLevel level) := by
    intro p
    apply Poly.live_congr
    · rfl
    · intro id inside
      have fewer : (p.dropToLevel level).level ≤ p.level := by
        simp only [RNSPoly.dropToLevel]
        split_ifs <;> omega
      have below : (id : Int) ≤ p.level := inside.trans fewer
      simp only [RNSPoly.dropToLevel, Poly.live, below, if_true]
  exact Ciphertext.ext (poly self.c0) (poly self.c1) rfl rfl rfl rfl

theorem live_live (self : Ciphertext cc) : live (live self) = live self := by
  have poly : ∀ p : RNSPoly cc, Poly.live (Poly.live p) = Poly.live p := by
    intro p
    apply Poly.live_congr
    · rfl
    · intro id inside
      simp only [Poly.live, inside, if_true]
  exact Ciphertext.ext (poly self.c0) (poly self.c1) rfl rfl rfl rfl

variable [Mul F] [Div F] [One F]

/-- Without an automatic technique, a subtraction drops its first operand by itself. -/
theorem sub_dropped {self lowered b : Ciphertext cc} (manual : ¬cc.rescaleTechnique.isAutomatic)
    (above : self.getLevel > b.getLevel)
    (same : live (self.dropPolys b.getLevel) = live lowered) (calls : Nat) (answer : Answer cc) :
    SameOutcome (do return (ofCiphertext (← Ciphertext.sub calls self b), answer))
      (do return (ofCiphertext (← Ciphertext.sub calls lowered b), answer)) := by
  have inflexible : ¬cc.rescaleTechnique.isFlexible := fun flexible =>
    manual (RescaleTechnique.isAutomatic_iff.mpr (.inr flexible))
  have keyID : self.keyID = lowered.keyID := (congrArg Ciphertext.keyID same :)
  have level : lowered.getLevel = b.getLevel := by
    have shared : (self.dropPolys b.getLevel).getLevel = lowered.getLevel :=
      (congrArg Ciphertext.getLevel same :)
    rw [← shared]
    exact Ciphertext.dropPolys_level b.getLevel above.le
  cases calls with
  | zero => exact SameOutcome.refl _
  | succ calls =>
      simp only [Ciphertext.sub, Ciphertext.withAdjusted, manual, Bool.false_eq_true, if_false,
        keyID, bind_assoc]
      apply SameOutcome.check
      have notAbove : ¬lowered.getLevel > b.getLevel := by omega
      simp only [Ciphertext.subAligned, Ciphertext.dropForSub, inflexible, Bool.false_eq_true,
        if_false, above, if_true, notAbove, ok_bind, bind_assoc]
      have parts := @subPolys_live _ _ _ _ b same answer
      simpa only [bind_assoc] using parts

/-- A subtraction at its own level drops the first operand by itself. -/
theorem Shadows.dropForSub {away here : Object cc} (shadows : Shadows away here)
    (offloaded : away.state ≠ none) (manual : ¬cc.rescaleTechnique.isAutomatic) (calls : Nat)
    (b : Ciphertext cc) :
    SameOutcome
      (do
        let lowered ← away.dropForSub b
        return (ofCiphertext (← Ciphertext.sub calls lowered.current b), .ciphertext b))
      (do
        let lowered ← here.dropForSub b
        return (ofCiphertext (← Ciphertext.sub calls lowered.current b), .ciphertext b)) := by
  have inflexible : ¬cc.rescaleTechnique.isFlexible := fun flexible =>
    manual (RescaleTechnique.isAutomatic_iff.mpr (.inr flexible))
  rw [Object.dropForSub, Object.dropForSub, if_neg inflexible, if_neg inflexible,
    shadows.getLevel]
  by_cases above : here.getLevel > b.getLevel
  · rw [if_pos above, if_pos above]
    simp only [ok_bind, dropLimbs_current away b.getLevel offloaded, shadows.current]
    have dropped : (here.dropLimbs b.getLevel).current =
        live (here.current.dropPolys b.getLevel) := by
      rw [current_of_resident shadows.resident, live_dropPolys,
        current_of_resident (show (here.dropLimbs b.getLevel).state = none from shadows.resident)]
      rfl
    have level : here.current.getLevel > b.getLevel := by
      rw [current_of_resident shadows.resident]
      change here.c0.level > b.getLevel
      simpa only [Object.getLevel, shadows.resident] using above
    apply sub_dropped manual level
    rw [dropped, live_live]
  · rw [if_neg above, if_neg above, ok_bind, ok_bind, shadows.current]
    exact SameOutcome.refl _

theorem Shadows.dropForAdd {away here : Object cc} (shadows : Shadows away here) (calls : Nat)
    (b : Ciphertext cc) :
    SameOutcome
      (do
        let lowered ← away.dropForAdd b
        return (ofCiphertext (← Ciphertext.add calls lowered.current b), .ciphertext b))
      (do
        let lowered ← here.dropForAdd b
        return (ofCiphertext (← Ciphertext.add calls lowered.current b), .ciphertext b)) := by
  rw [Object.dropForAdd, Object.dropForAdd, shadows.getLevel, shadows.dropToLevel]
  by_cases flexible : cc.rescaleTechnique.isFlexible
  · rw [if_pos flexible, if_pos flexible, bind_assoc, bind_assoc]
    apply SameOutcome.check
    rw [pure_bind, pure_bind, shadows.current]
    exact SameOutcome.refl _
  · rw [if_neg flexible, if_neg flexible]
    by_cases above : here.getLevel > b.getLevel
    · rw [if_pos above, if_pos above]
      exact SameOutcome.refl _
    · rw [if_neg above, if_neg above, ok_bind, ok_bind, shadows.current]
      exact SameOutcome.refl _

/-- An automatic technique left the operands at one level, and nothing is dropped. -/
theorem Shadows.dropForSub_level {away here : Object cc} (shadows : Shadows away here)
    (b : Ciphertext cc) (level : here.getLevel = b.getLevel) (calls : Nat) :
    SameOutcome
      (do
        let lowered ← away.dropForSub b
        return (ofCiphertext (← Ciphertext.sub calls lowered.current b), .ciphertext b))
      (do
        let lowered ← here.dropForSub b
        return (ofCiphertext (← Ciphertext.sub calls lowered.current b), .ciphertext b)) := by
  have notAbove : ¬here.getLevel > b.getLevel := by omega
  rw [Object.dropForSub, Object.dropForSub, shadows.getLevel]
  by_cases flexible : cc.rescaleTechnique.isFlexible
  · rw [if_pos flexible, if_pos flexible, bind_assoc, bind_assoc]
    apply SameOutcome.check
    rw [pure_bind, pure_bind, shadows.current]
    exact SameOutcome.refl _
  · rw [if_neg flexible, if_neg flexible, if_neg notAbove, if_neg notAbove, ok_bind, ok_bind,
      shadows.current]
    exact SameOutcome.refl _

/-- The mutable forms agree when both ways to drop the operand lead to one outcome. -/
theorem Shadows.withBothAdjusted {away here : Object cc} (shadows : Shadows away here)
    (op operandKind : String) {drop : Object cc → Ciphertext cc → Except Failure (Object cc)}
    {finish : Ciphertext cc → Ciphertext cc → Except Failure (Ciphertext cc)} {b : Ciphertext cc}
    (low : ¬Raises cc here.NoiseLevel here.getLevel b.NoiseLevel b.getLevel)
    (dropped : (cc.rescaleTechnique.isAutomatic → here.getLevel = b.getLevel) →
      SameOutcome
        (do
          let lowered ← drop away b
          return (ofCiphertext (← finish lowered.current b), .ciphertext b))
        (do
          let lowered ← drop here b
          return (ofCiphertext (← finish lowered.current b), .ciphertext b))) :
    SameOutcome (Object.withBothAdjusted op operandKind drop finish away b)
      (Object.withBothAdjusted op operandKind drop finish here b) := by
  rw [Object.withBothAdjusted, Object.withBothAdjusted, shadows.keyID]
  apply SameOutcome.check
  by_cases automatic : cc.rescaleTechnique.isAutomatic
  · rw [if_pos automatic, if_pos automatic]
    apply (shadows.adjustForAddOrSub b low).andThen
    intro ok level
    cases ok with
    | true =>
        exact dropped fun _ => level rfl automatic
    | false =>
        simp only [Bool.false_eq_true, if_false, shadows.shown, shadows.current,
          shadows.getLevel, shadows.NoiseLevel]
        exact SameOutcome.refl _
  · rw [if_neg automatic, if_neg automatic]
    exact dropped fun yes => absurd yes automatic

theorem Shadows.addMutable {away here : Object cc} (shadows : Shadows away here) (calls : Nat)
    {b : Ciphertext cc}
    (low : ¬Raises cc here.NoiseLevel here.getLevel b.NoiseLevel b.getLevel) :
    SameOutcome (away.addMutable calls b) (here.addMutable calls b) :=
  shadows.withBothAdjusted _ _ low fun _ => shadows.dropForAdd calls b

theorem Shadows.subMutable {away here : Object cc} (shadows : Shadows away here)
    (offloaded : away.state ≠ none) (calls : Nat) {b : Ciphertext cc}
    (low : ¬Raises cc here.NoiseLevel here.getLevel b.NoiseLevel b.getLevel) :
    SameOutcome (away.subMutable calls b) (here.subMutable calls b) := by
  apply shadows.withBothAdjusted _ _ low
  intro level
  by_cases automatic : cc.rescaleTechnique.isAutomatic
  · exact shadows.dropForSub_level b (level automatic) calls
  · exact shadows.dropForSub offloaded automatic calls b

/-- The mutable product goes on from here after it adopted the tag. -/
def multFrom (keys : String → Option (EvalKey cc)) (calls : Nat) (b : Ciphertext cc)
    (rescale : Bool) (self : Object cc) : Outcome cc := do
  let (self, b) ←
    if cc.rescaleTechnique.isAutomatic then self.alignForMult b
    else if cc.rescaleTechnique = .fixedManual ∧ self.getLevel > b.getLevel then
      pure (self.dropPolys b.getLevel, b)
    else pure (self, b)
  cc.check (self.NoiseLevel = 1) "NoiseLevel == 1"
  cc.check (self.NoiseLevel = b.NoiseLevel) "NoiseLevel == b.NoiseLevel"
  return (ofCiphertext (← self.current.mult keys calls b rescale), .ciphertext b)

theorem multMutable_eq (keys : String → Option (EvalKey cc)) (calls : Nat) (self : Object cc)
    (b : Ciphertext cc) (rescale : Bool) :
    self.multMutable keys calls b rescale =
      (cc.check (self.keyID = b.keyID) "keyID == b.keyID" >>= fun _ =>
        multFrom keys calls b rescale (self.adoptKey b)) := rfl

/-- The end of the product reads the degree of the object and what it holds after the reload. -/
def multEnd (keys : String → Option (EvalKey cc)) (calls : Nat) (rescale : Bool)
    (aligned : Object cc × Ciphertext cc) : Outcome cc := do
  cc.check (aligned.1.NoiseLevel = 1) "NoiseLevel == 1"
  cc.check (aligned.1.NoiseLevel = aligned.2.NoiseLevel) "NoiseLevel == b.NoiseLevel"
  return (ofCiphertext (← aligned.1.current.mult keys calls aligned.2 rescale),
    .ciphertext aligned.2)

theorem Shadows.multEnd {away here : Object cc} (shadows : Shadows away here)
    (keys : String → Option (EvalKey cc)) (calls : Nat) (rescale : Bool) (b : Ciphertext cc) :
    Object.multEnd keys calls rescale (away, b) = Object.multEnd keys calls rescale (here, b) := by
  simp only [Object.multEnd, shadows.NoiseLevel, shadows.current]

/-- An alignment for a product ends alike, and both operands are reduced in both runs. -/
theorem Shadows.alignForMult {away here : Object cc} (shadows : Shadows away here)
    {b : Ciphertext cc}
    (low : ¬Raises cc here.NoiseLevel here.getLevel b.NoiseLevel b.getLevel)
    (next : Object cc × Ciphertext cc → Outcome cc)
    (follows : ∀ b, SameOutcome (next (away, b)) (next (here, b))) :
    SameOutcome (away.alignForMult b >>= next) (here.alignForMult b >>= next) := by
  have finished : ∀ b_ : Ciphertext cc,
      SameOutcome
        (next (if away.NoiseLevel = 2 then (away.rescaleInternal, b_.rescaleInternal)
          else (away, b_)))
        (next (if here.NoiseLevel = 2 then (here.rescaleInternal, b_.rescaleInternal)
          else (here, b_))) := by
    intro b_
    rw [shadows.NoiseLevel, shadows.rescaleInternal]
    by_cases degree : here.NoiseLevel = 2
    · rw [if_pos degree, if_pos degree]
      exact SameOutcome.refl _
    · rw [if_neg degree, if_neg degree]
      exact follows b_
  simp only [Object.alignForMult, bind_assoc]
  apply (shadows.adjustForAddOrSub b low).andThen
  intro ok _
  cases ok with
  | true =>
      simp only [if_true, pure_bind]
      exact finished b
  | false =>
      rw [shadows.shown]
      cases b.adjustForAddOrSub here.shown with
      | error failure => exact .error failure
      | ok result =>
          obtain ⟨b_, adjustedToo⟩ := result
          cases adjustedToo with
          | true => exact finished b_
          | false =>
              change SameOutcome (.error (.adjust "mult" away.getLevel away.NoiseLevel
                b_.getLevel b_.NoiseLevel "ciphertext")) (.error (.adjust "mult" here.getLevel
                here.NoiseLevel b_.getLevel b_.NoiseLevel "ciphertext"))
              rw [shadows.getLevel, shadows.NoiseLevel]
              exact SameOutcome.refl _

theorem Shadows.multFrom {away here : Object cc} (shadows : Shadows away here)
    (keys : String → Option (EvalKey cc)) (calls : Nat) {b : Ciphertext cc} (rescale : Bool)
    (low : ¬Raises cc here.NoiseLevel here.getLevel b.NoiseLevel b.getLevel) :
    SameOutcome (Object.multFrom keys calls b rescale away)
      (Object.multFrom keys calls b rescale here) := by
  have ends : ∀ b, SameOutcome (Object.multEnd keys calls rescale (away, b))
      (Object.multEnd keys calls rescale (here, b)) := by
    intro b
    rw [shadows.multEnd]
    exact SameOutcome.refl _
  rw [Object.multFrom, Object.multFrom]
  by_cases automatic : cc.rescaleTechnique.isAutomatic
  · rw [if_pos automatic, if_pos automatic]
    exact shadows.alignForMult low (Object.multEnd keys calls rescale) ends
  · rw [if_neg automatic, if_neg automatic, shadows.getLevel, shadows.dropPolys]
    by_cases above : cc.rescaleTechnique = .fixedManual ∧ here.getLevel > b.getLevel
    · rw [if_pos above, if_pos above]
      exact SameOutcome.refl _
    · rw [if_neg above, if_neg above]
      exact ends b

/-- An untagged object ends like the tagged one, since the product adopts the tag again. -/
theorem multEnd_retag (keys : String → Option (EvalKey cc)) (calls : Nat) (rescale : Bool)
    {self : Object cc} {b : Ciphertext cc} {keyID : String} (sameKey : b.keyID = keyID)
    (empty : self.tag = "") (checked : cc.asserts → self.tag = keyID) :
    Object.multEnd keys calls rescale (self, b) =
      Object.multEnd keys calls rescale (self.retag keyID, b) := by
  have product : (withKey self.current keyID).mult keys calls b rescale =
      self.current.mult keys calls b rescale := by
    rw [← sameKey]
    apply mult_withKey keys calls rescale (.inl empty)
    rw [sameKey]
    exact checked
  simp only [Object.multEnd, retag_NoiseLevel, retag_current, product]
  rfl

/-- An operand is adjusted to the level and the scaling of the other one. -/
theorem adjust_retag (self : Object cc) (b : Ciphertext cc) (keyID : String) :
    b.adjustForAddOrSub (self.retag keyID).shown = b.adjustForAddOrSub self.shown := by
  have level : (self.retag keyID).shown.getLevel = self.shown.getLevel := self.retag_getLevel keyID
  simp only [Ciphertext.adjustForAddOrSub, level]
  rfl

theorem alignForMult_retag {self : Object cc} {b : Ciphertext cc} {keyID : String}
    (sameKey : b.keyID = keyID) (next : Object cc × Ciphertext cc → Outcome cc)
    (follows : ∀ (result : Object cc) (b_ : Ciphertext cc), result.tag = self.tag →
      b_.keyID = keyID → next (result, b_) = next (result.retag keyID, b_)) :
    (self.alignForMult b >>= next) = ((self.retag keyID).alignForMult b >>= next) := by
  have finished : ∀ (result : Object cc) (b_ : Ciphertext cc), result.tag = self.tag →
      b_.keyID = keyID →
      next (if result.NoiseLevel = 2 then (result.rescaleInternal, b_.rescaleInternal)
          else (result, b_)) =
        next (if (result.retag keyID).NoiseLevel = 2 then
            ((result.retag keyID).rescaleInternal, b_.rescaleInternal)
          else (result.retag keyID, b_)) := by
    intro result b_ kept tagged
    rw [retag_NoiseLevel, retag_rescaleInternal]
    by_cases degree : result.NoiseLevel = 2
    · rw [if_pos degree, if_pos degree]
      exact follows _ _ kept tagged
    · rw [if_neg degree, if_neg degree]
      exact follows _ _ kept tagged
  simp only [Object.alignForMult, bind_assoc]
  have steps := @Retags.adjustForAddOrSub _ _ keyID _ _ self _ b
  generalize self.adjustForAddOrSub b = outcome at steps ⊢
  generalize (self.retag keyID).adjustForAddOrSub b = other at steps ⊢
  cases steps with
  | error failure => rfl
  | ok result flag kept =>
      cases flag with
      | true => exact finished result b kept sameKey
      | false =>
          simp only [ok_bind, Bool.false_eq_true, if_false, adjust_retag]
          have tagged := Tagged.adjustForAddOrSub b result.shown
          generalize b.adjustForAddOrSub result.shown = adjusted at tagged ⊢
          cases tagged with
          | error failure => rfl
          | ok b_ adjustedToo same =>
              cases adjustedToo with
              | true => exact finished result b_ kept (same.trans sameKey)
              | false => 
                  simp only [ok_bind, Bool.false_eq_true, if_false, error_bind, retag_getLevel,
                    retag_NoiseLevel]

theorem multFrom_retag (keys : String → Option (EvalKey cc)) (calls : Nat) (rescale : Bool)
    {self : Object cc} {b : Ciphertext cc} (empty : self.tag = "")
    (checked : cc.asserts → self.tag = b.keyID) :
    Object.multFrom keys calls b rescale self =
      Object.multFrom keys calls b rescale (self.retag b.keyID) := by
  rw [Object.multFrom, Object.multFrom]
  by_cases automatic : cc.rescaleTechnique.isAutomatic
  · rw [if_pos automatic, if_pos automatic]
    apply alignForMult_retag rfl (Object.multEnd keys calls rescale)
    intro result b_ kept sameKey
    apply multEnd_retag keys calls rescale sameKey (kept.trans empty)
    rw [kept]
    exact checked
  · rw [if_neg automatic, if_neg automatic, retag_getLevel, retag_dropPolys]
    by_cases above : cc.rescaleTechnique = .fixedManual ∧ self.getLevel > b.getLevel
    · rw [if_pos above, if_pos above]
      have kept : (self.dropPolys b.getLevel).tag = self.tag := self.tag_dropPolys b.getLevel
      apply multEnd_retag keys calls rescale rfl (kept.trans empty)
      rw [kept]
      exact checked
    · rw [if_neg above, if_neg above]
      exact multEnd_retag keys calls rescale rfl empty checked

omit [Mul F] [Div F] [One F] in
/-- The tag of a resident object is its own, and the snapshot keeps the tag of an offloaded one. -/
theorem Shadows.adoptKey {away here : Object cc} (shadows : Shadows away here)
    (offloaded : away.state ≠ none) (empty : here.keyID = "") (b : Ciphertext cc) :
    (away.adoptKey b).tag = "" ∧
      Shadows ((away.adoptKey b).retag b.keyID) { here with keyID := b.keyID } := by
  have awayEmpty : away.keyID = "" := shadows.keyID.trans empty
  have contents : (away.adoptKey b).current = away.current := by
    rw [Object.adoptKey, if_pos awayEmpty]
    obtain ⟨raw, present⟩ := Option.ne_none_iff_exists'.mp offloaded
    simp only [Object.current, ensureResident, reload, present, load]
  have here_current := current_of_resident shadows.resident
  have tag : (away.adoptKey b).tag = "" := by
    rw [Object.tag, contents, shadows.current, here_current]
    exact empty
  have tagged : ((away.adoptKey b).retag b.keyID).current =
      Object.current { here with keyID := b.keyID } := by
    rw [retag_current, contents, shadows.current, here_current,
      current_of_resident (show ({ here with keyID := b.keyID } : Object cc).state = none from
        shadows.resident)]
    rfl
  have level : (away.adoptKey b).getLevel = here.getLevel := by
    rw [Object.adoptKey, if_pos awayEmpty]
    exact shadows.getLevel
  refine ⟨tag, shadows.resident, tagged, ?_, ?_, ?_, ?_, rfl⟩
  · rw [retag_getLevel]
    exact level
  · rw [retag_NoiseLevel, Object.adoptKey, if_pos awayEmpty]
    exact shadows.NoiseLevel
  · rw [retag_NoiseFactor, Object.adoptKey, if_pos awayEmpty]
    exact shadows.NoiseFactor
  · rw [Object.adoptKey, if_pos awayEmpty]
    exact shadows.slots

theorem Shadows.multMutable {away here : Object cc} (shadows : Shadows away here)
    (offloaded : away.state ≠ none) (keys : String → Option (EvalKey cc)) (calls : Nat)
    {b : Ciphertext cc} (rescale : Bool)
    (low : ¬Raises cc here.NoiseLevel here.getLevel b.NoiseLevel b.getLevel) :
    SameOutcome (away.multMutable keys calls b rescale) (here.multMutable keys calls b rescale) := by
  rw [multMutable_eq, multMutable_eq, shadows.keyID]
  by_cases checked : cc.asserts → here.keyID = b.keyID
  · have passed : cc.check (here.keyID = b.keyID) "keyID == b.keyID" = .ok () :=
      ContextData.check_eq_ok_iff.mpr checked
    rw [passed, ok_bind, ok_bind]
    by_cases empty : here.keyID = ""
    · obtain ⟨tag, tagged⟩ := shadows.adoptKey offloaded empty b
      rw [multFrom_retag keys calls rescale tag (by rw [tag, ← empty]; exact checked)]
      have adopted : here.adoptKey b = { here with keyID := b.keyID } := by
        rw [Object.adoptKey, if_pos empty]
      rw [adopted]
      exact tagged.multFrom keys calls rescale low
    · have awayTagged : away.keyID ≠ "" := by
        rw [shadows.keyID]
        exact empty
      rw [Object.adoptKey, Object.adoptKey, if_neg empty, if_neg awayTagged]
      exact shadows.multFrom keys calls rescale low
  · have failed : ∃ failure, cc.check (here.keyID = b.keyID) "keyID == b.keyID" = .error failure := by
      cases outcome : cc.check (here.keyID = b.keyID) "keyID == b.keyID" with
      | error failure => exact ⟨failure, rfl⟩
      | ok _ => exact absurd (ContextData.check_eq_ok_iff.mp outcome) checked
    obtain ⟨failure, failed⟩ := failed
    rw [failed]
    exact .error failure

end Object
end Fideslib.Offload
