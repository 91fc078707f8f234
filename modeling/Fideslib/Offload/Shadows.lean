/-
This file proves that an offloaded ciphertext is aligned and combined like the resident one.
-/

import Fideslib.Offload.Alignment

namespace Fideslib.Offload

open CKKS

variable {F : Type} {cc : ContextData F}

/-- Both runs fail alike, or they answer alike and leave one ciphertext. -/
inductive SameOutcome : Outcome cc → Outcome cc → Prop
  | error (failure : Failure) : SameOutcome (.error failure) (.error failure)
  | ok {first second : Object cc} (same : first.current = second.current) (answer : Answer cc) :
      SameOutcome (.ok (first, answer)) (.ok (second, answer))

namespace SameOutcome

theorem refl (outcome : Outcome cc) : SameOutcome outcome outcome := by
  cases outcome with
  | error failure => exact .error failure
  | ok result => exact .ok rfl result.2

theorem ok_iff {first second : Object cc} {one two : Answer cc} :
    SameOutcome (.ok (first, one)) (.ok (second, two)) ↔
      first.current = second.current ∧ one = two := by
  constructor
  · intro same
    cases same with
    | ok same answer => exact ⟨same, rfl⟩
  · rintro ⟨same, rfl⟩
    exact .ok same one

/-- The same check comes first in both runs. -/
theorem check {condition : Prop} [Decidable condition] {text : String}
    {first second : Outcome cc} (same : SameOutcome first second) :
    SameOutcome (cc.check condition text >>= fun _ => first)
      (cc.check condition text >>= fun _ => second) := by
  cases cc.check condition text with
  | error failure => exact .error failure
  | ok _ => exact same

end SameOutcome

/-- Two runs of one step are equal, or both left their objects as they were. -/
inductive Alike {A : Type} (settled : A → Prop) (away here : Object cc) :
    Except Failure (Object cc × A) → Except Failure (Object cc × A) → Prop
  | same (outcome : Except Failure (Object cc × A)) : Alike settled away here outcome outcome
  | still (answer : A) (holds : settled answer) :
      Alike settled away here (.ok (away, answer)) (.ok (here, answer))

namespace Alike

variable {A : Type} {settled : A → Prop} {away here : Object cc}

theorem ite {first second third fourth : Except Failure (Object cc × A)} (condition : Prop)
    [Decidable condition] (holds : condition → Alike settled away here first second)
    (fails : ¬condition → Alike settled away here third fourth) :
    Alike settled away here (if condition then first else third)
      (if condition then second else fourth) := by
  by_cases taken : condition
  · rw [if_pos taken, if_pos taken]
    exact holds taken
  · rw [if_neg taken, if_neg taken]
    exact fails taken

theorem mono {weaker : A → Prop} {first second : Except Failure (Object cc × A)}
    (implied : ∀ answer, settled answer → weaker answer)
    (steps : Alike settled away here first second) : Alike weaker away here first second := by
  cases steps with
  | same outcome => exact .same _
  | still answer holds => exact .still answer (implied answer holds)

/-- One continuation of two such steps gives one outcome. -/
theorem andThen {first second : Except Failure (Object cc × A)}
    {next : Object cc × A → Outcome cc} (steps : Alike settled away here first second)
    (follows : ∀ answer, settled answer → SameOutcome (next (away, answer)) (next (here, answer))) :
    SameOutcome (first >>= next) (second >>= next) := by
  cases steps with
  | same outcome => exact SameOutcome.refl _
  | still answer holds => exact follows answer holds

end Alike

/-- Under fixed automatic scaling, an operand of lower degree is raised to the target. -/
def Raises (cc : ContextData F) (NoiseLevel level scaleDegree target : Int) : Prop :=
  cc.rescaleTechnique = .fixedAuto ∧ NoiseLevel ≠ scaleDegree ∧
    ((level = target ∧ NoiseLevel < scaleDegree) ∨ (level > target ∧ NoiseLevel ≠ 2))

instance (cc : ContextData F) (NoiseLevel level scaleDegree target : Int) :
    Decidable (Raises cc NoiseLevel level scaleDegree target) := by
  unfold Raises
  infer_instance

namespace Object

namespace Shadows

variable {away here : Object cc}

theorem enter (shadows : Shadows away here) (body : Ciphertext cc → Ciphertext cc) :
    away.enter body = here.enter body := by
  rw [Object.enter, Object.enter, shadows.current]

theorem rescaleInternal [Div F] (shadows : Shadows away here) :
    away.rescaleInternal = here.rescaleInternal := shadows.enter _

theorem multScalarNoPrecheck [Mul F] [Div F] (shadows : Shadows away here) (c : F) (rescale : Bool) :
    away.multScalarNoPrecheck c rescale = here.multScalarNoPrecheck c rescale := shadows.enter _

theorem dropPolys (shadows : Shadows away here) (level : Int) :
    away.dropPolys level = here.dropPolys level := shadows.enter _

theorem multScalar [Mul F] [Div F] (shadows : Shadows away here) (c : F) (rescale : Bool) :
    away.multScalar c rescale = here.multScalar c rescale := by
  rw [Object.multScalar, Object.multScalar, shadows.current]

theorem dropToLevel [Mul F] [Div F] [One F] (shadows : Shadows away here) (level : Int) (skip_adjust : Bool) :
    away.dropToLevel level skip_adjust = here.dropToLevel level skip_adjust := by
  rw [Object.dropToLevel, Object.dropToLevel, shadows.current]

/-- An operand is adjusted to what the object shows, and that is the same. -/
theorem shown (shadows : Shadows away here) : away.shown = here.shown := by
  simp only [Object.shown, shadows.current, shadows.getLevel, shadows.NoiseLevel,
    shadows.NoiseFactor, shadows.slots, shadows.keyID]

variable [Mul F] [Div F] [One F]

/-- An adjustment that leaves the object alone found it at the target. -/
theorem adjustScaleAndLevel (shadows : Shadows away here) (scaleDegree level : Int)
    (scaling_factor : F) (low : ¬Raises cc here.NoiseLevel here.getLevel scaleDegree level) :
    Alike (fun ok => ok = true → here.getLevel = level) away here
      (away.adjustScaleAndLevel scaleDegree level scaling_factor)
      (here.adjustScaleAndLevel scaleDegree level scaling_factor) := by
  simp only [Object.adjustScaleAndLevel, shadows.getLevel, shadows.NoiseLevel,
    shadows.NoiseFactor, shadows.dropPolys, shadows.rescaleInternal, shadows.multScalarNoPrecheck,
    shadows.multScalar]
  have refused : ∀ answer : Bool, answer = false →
      Alike (fun ok => ok = true → here.getLevel = level) away here (.ok (away, answer))
        (.ok (here, answer)) := by
    intro answer no
    exact .still answer fun yes => absurd (yes.symm.trans no) (by decide)
  apply Alike.ite
  · intro _
    apply Alike.ite
    · intro _
      exact .same _
    · intro notAbove
      apply Alike.ite
      · intro _
        exact refused false rfl
      · intro notBelow
        exact .still true fun _ => by omega
  intro degrees
  apply Alike.ite
  · intro fixedAuto
    have differs : here.NoiseLevel ≠ scaleDegree := fun equal => degrees ⟨.inr fixedAuto, equal⟩
    apply Alike.ite
    · intro equal
      apply Alike.ite
      · intro lower
        exact absurd ⟨fixedAuto, differs, .inl ⟨equal, lower⟩⟩ low
      · intro _
        exact refused false rfl
    · intro _
      apply Alike.ite
      · intro above
        have degree : here.NoiseLevel = 2 := by
          by_contra other
          exact low ⟨fixedAuto, differs, .inr ⟨above, other⟩⟩
        rw [if_pos degree, if_pos degree]
        exact .same _
      · intro _
        exact refused false rfl
  intro _
  apply Alike.ite
  · intro _
    exact .same _
  intro notAbove
  apply Alike.ite
  · intro _
    exact refused false rfl
  intro notBelow
  apply Alike.ite
  · intro _
    exact .same _
  intro _
  apply Alike.ite
  · intro _
    exact refused false rfl
  · intro _
    exact .still true fun _ => by omega

theorem adjustForAddOrSub (shadows : Shadows away here) (b : Ciphertext cc)
    (low : ¬Raises cc here.NoiseLevel here.getLevel b.NoiseLevel b.getLevel) :
    Alike (fun ok => ok = true → cc.rescaleTechnique.isAutomatic → here.getLevel = b.getLevel)
      away here (away.adjustForAddOrSub b) (here.adjustForAddOrSub b) := by
  by_cases manual : cc.rescaleTechnique = .fixedManual
  · have notAutomatic : ¬cc.rescaleTechnique.isAutomatic := by
      rw [manual]
      decide
    rw [Object.adjustForAddOrSub, Object.adjustForAddOrSub, if_pos manual, if_pos manual,
      shadows.getLevel, shadows.NoiseLevel, shadows.rescaleInternal, shadows.multScalar]
    have kept : ∀ answer : Bool,
        Alike (fun ok => ok = true → cc.rescaleTechnique.isAutomatic →
          here.getLevel = b.getLevel) away here (.ok (away, answer)) (.ok (here, answer)) :=
      fun answer => .still answer fun _ automatic => absurd automatic notAutomatic
    apply Alike.ite
    · intro _
      apply Alike.ite
      · intro _
        exact .same _
      · intro _
        exact Alike.ite _ (fun _ => .same _) fun _ => kept true
    · intro _
      apply Alike.ite
      · intro _
        exact .same _
      · intro _
        exact Alike.ite _ (fun _ => kept false) fun _ => kept true
  · rw [Object.adjustForAddOrSub, Object.adjustForAddOrSub, if_neg manual, if_neg manual]
    apply Alike.ite
    · intro _
      have adjusted := shadows.adjustScaleAndLevel b.NoiseLevel b.getLevel b.NoiseFactor low
      exact adjusted.mono fun answer holds yes _ => holds yes
    · intro notAutomatic
      cases cc.check False "\"This never happens\" == nullptr" with
      | error failure => exact .same _
      | ok _ => exact .still false fun yes => absurd yes (by decide)

theorem adjustCiphertextToPlaintext (shadows : Shadows away here) (b : Plaintext cc)
    (low : ¬Raises cc here.NoiseLevel here.getLevel b.NoiseLevel b.c0.level) :
    Alike (fun _ => True) away here (away.adjustCiphertextToPlaintext b)
      (here.adjustCiphertextToPlaintext b) := by
  rw [Object.adjustCiphertextToPlaintext, Object.adjustCiphertextToPlaintext]
  apply Alike.ite
  · intro _
    have adjusted := shadows.adjustScaleAndLevel b.NoiseLevel b.c0.level b.NoiseFactor low
    exact adjusted.mono fun answer _ => trivial
  · intro _
    cases cc.check False "\"This never happens\" == nullptr" with
    | error failure => exact .same _
    | ok _ => exact .still false trivial

end Shadows
end Object
end Fideslib.Offload

namespace Fideslib.Offload

open CKKS

variable {F : Type} [Mul F] [Div F] [One F] {cc : ContextData F}

namespace Object

variable {away here : Object cc}

omit [Mul F] [One F] in
/-- A step down restores residency, or it does nothing. -/
theorem Shadows.stepDownTo (shadows : Shadows away here) (b : Plaintext cc) :
    (away.stepDownTo b = here.stepDownTo b) ∨
      (away.stepDownTo b = away ∧ here.stepDownTo b = here) := by
  rw [Object.stepDownTo, Object.stepDownTo, shadows.NoiseLevel, shadows.getLevel]
  by_cases above : b.NoiseLevel = 1 ∧ here.NoiseLevel = 2 ∧ b.c0.level = here.getLevel - 1
  · rw [if_pos above, if_pos above]
    exact .inl shadows.rescaleInternal
  · rw [if_neg above, if_neg above]
    exact .inr ⟨rfl, rfl⟩

/-- The plaintext meets both objects with one adjustment. -/
theorem Shadows.finishPt (shadows : Shadows away here) (op : String)
    (finish : Ciphertext cc → Plaintext cc → Except Failure (Ciphertext cc)) (b : Plaintext cc)
    (ok : Bool) :
    SameOutcome
      (if ok then do
        cc.check (away.NoiseLevel = b.NoiseLevel) "NoiseLevel == b.NoiseLevel"
        return (ofCiphertext (← finish away.current b), .plaintext b)
      else do
        let (b_, adjustedToo) ← b.adjustPlaintextToCiphertext away.shown
        if adjustedToo then return (ofCiphertext (← finish away.current b_), .plaintext b_)
        else .error (.adjust op away.getLevel away.NoiseLevel b_.c0.level b_.NoiseLevel
          "plaintext"))
      (if ok then do
        cc.check (here.NoiseLevel = b.NoiseLevel) "NoiseLevel == b.NoiseLevel"
        return (ofCiphertext (← finish here.current b), .plaintext b)
      else do
        let (b_, adjustedToo) ← b.adjustPlaintextToCiphertext here.shown
        if adjustedToo then return (ofCiphertext (← finish here.current b_), .plaintext b_)
        else .error (.adjust op here.getLevel here.NoiseLevel b_.c0.level b_.NoiseLevel
          "plaintext")) := by
  rw [shadows.NoiseLevel, shadows.current, shadows.shown, shadows.getLevel]
  exact SameOutcome.refl _

theorem Shadows.withBothAdjustedPt (shadows : Shadows away here) (op : String)
    (finish : Ciphertext cc → Plaintext cc → Except Failure (Ciphertext cc)) {b : Plaintext cc}
    (low : ¬Raises cc here.NoiseLevel here.getLevel b.NoiseLevel b.c0.level) :
    SameOutcome (Object.withBothAdjustedPt op finish away b)
      (Object.withBothAdjustedPt op finish here b) := by
  rw [Object.withBothAdjustedPt, Object.withBothAdjustedPt]
  by_cases automatic : cc.rescaleTechnique.isAutomatic
  · rw [if_pos automatic, if_pos automatic]
    rcases shadows.stepDownTo b with equal | ⟨left, right⟩
    · rw [equal]
      exact SameOutcome.refl _
    · rw [left, right]
      apply (shadows.adjustCiphertextToPlaintext b low).andThen
      intro ok _
      exact shadows.finishPt op finish b ok
  · rw [if_neg automatic, if_neg automatic, shadows.NoiseLevel, shadows.current]
    exact SameOutcome.refl _

/-- A product whose receiver had degree two restored residency before the adjustment. -/
theorem Shadows.multPtMutable (shadows : Shadows away here) (calls : Nat) {b : Plaintext cc}
    (low : here.NoiseLevel = 2 ∨
      ¬Raises cc here.NoiseLevel here.getLevel b.NoiseLevel b.c0.level) :
    SameOutcome (away.multPtMutable calls b) (here.multPtMutable calls b) := by
  rw [Object.multPtMutable, Object.multPtMutable]
  by_cases automatic : cc.rescaleTechnique.isAutomatic
  · rw [if_pos automatic, if_pos automatic]
    by_cases degree : here.NoiseLevel = 2
    · have equal : away.reduceDegree = here.reduceDegree := by
        rw [Object.reduceDegree, Object.reduceDegree, shadows.NoiseLevel, if_pos degree,
          if_pos degree]
        exact shadows.rescaleInternal
      rw [equal]
      exact SameOutcome.refl _
    · have left : away.reduceDegree = away := by
        rw [Object.reduceDegree, shadows.NoiseLevel, if_neg degree]
      have right : here.reduceDegree = here := by
        rw [Object.reduceDegree, if_neg degree]
      rw [left, right]
      apply (shadows.adjustCiphertextToPlaintext b (low.resolve_left degree)).andThen
      intro ok _
      simp only [left, right, shadows.shown, shadows.current, shadows.NoiseLevel,
        shadows.getLevel]
      exact SameOutcome.refl _
  · rw [if_neg automatic, if_neg automatic, shadows.NoiseLevel, shadows.current]
    exact SameOutcome.refl _

omit [Mul F] [One F] in
theorem Shadows.multScalarTo (shadows : Shadows away here)
    (whole : Ciphertext cc → Except Failure (Ciphertext cc))
    (BuildConstant2 : Int → (id : Nat) → Fin cc.N → ZMod (cc.prime id)) (target_level : Int) :
    away.multScalarTo whole BuildConstant2 target_level =
      here.multScalarTo whole BuildConstant2 target_level := by
  by_cases reduced : cc.rescaleTechnique ≠ .fixedManual ∧ here.NoiseLevel = 2
  · rw [Object.multScalarTo, Object.multScalarTo, shadows.NoiseLevel, shadows.rescaleInternal,
      if_pos reduced, if_pos reduced]
  · rw [Object.multScalarTo, Object.multScalarTo, shadows.NoiseLevel, shadows.rescaleInternal,
      if_neg reduced, if_neg reduced, shadows.getLevel, shadows.current, shadows.dropPolys]

end Object
end Fideslib.Offload
