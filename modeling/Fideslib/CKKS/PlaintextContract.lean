/-
This file proves that the operations with a plaintext end on two aligned operands.
-/

import Fideslib.CKKS.PlaintextAlignment
import Fideslib.CKKS.PlaintextObjects

namespace Fideslib.CKKS
namespace Ciphertext

open ContextData (check_ok)

variable {F : Type} [Mul F] [Div F] [One F] {cc : ContextData F}

/-- The ciphertext is adjusted to the plaintext, or the plaintext to the ciphertext. -/
inductive AlignedPt (self : Ciphertext cc) (b : Plaintext cc) : Ciphertext cc → Plaintext cc → Prop
  | ciphertext {adjusted : Ciphertext cc}
      (done : self.adjustCiphertextToPlaintext b = .ok (adjusted, true))
      (target : AdjustedTo b.NoiseLevel b.c0.level self adjusted)
      (lower : b.c0.level ≤ self.getLevel) : AlignedPt self b adjusted b
  | plaintext {adjusted : Plaintext cc}
      (kept : self.adjustCiphertextToPlaintext b = .ok (self, false))
      (done : b.adjustPlaintextToCiphertext self = .ok (adjusted, true))
      (target : Plaintext.AdjustedTo self.NoiseLevel self.getLevel b adjusted)
      (lower : self.getLevel ≤ b.c0.level) : AlignedPt self b self adjusted

variable {self x : Ciphertext cc} {b y : Plaintext cc}

theorem exists_alignedPt (automatic : cc.rescaleTechnique.isAutomatic) (valid : self.Valid)
    (possible : b.NoiseLevel = 1 ∨ b.NoiseLevel = 2) : ∃ x y, AlignedPt self b x y := by
  by_cases reach : self.CanReach b.NoiseLevel b.c0.level
  · obtain ⟨adjusted, done, target⟩ :=
      adjustScaleAndLevel_succeeds automatic valid possible b.NoiseFactor reach
    rw [← adjustCiphertextToPlaintext_eq automatic] at done
    have lower : b.c0.level ≤ self.getLevel := by
      unfold CanReach at reach
      omega
    exact ⟨adjusted, b, .ciphertext done target lower⟩
  · have kept := adjustScaleAndLevel_fails automatic b.NoiseFactor reach
    rw [← adjustCiphertextToPlaintext_eq automatic] at kept
    obtain ⟨adjusted, done, target⟩ := Plaintext.adjustPlaintextToCiphertext_succeeds automatic
      possible valid reach
    have lower : self.getLevel ≤ b.c0.level := by
      unfold CanReach at reach
      omega
    exact ⟨self, adjusted, .plaintext kept done target lower⟩

namespace AlignedPt

theorem sameLevel (aligned : AlignedPt self b x y) : x.getLevel = y.c0.level := by
  cases aligned with
  | ciphertext done target lower => exact target.level
  | plaintext kept done target lower => exact target.level.symm

theorem sameDegree (aligned : AlignedPt self b x y) : x.NoiseLevel = y.NoiseLevel := by
  cases aligned with
  | ciphertext done target lower => exact target.degree
  | plaintext kept done target lower => exact target.degree.symm

/-- The aligned operands have the lower of the two levels. -/
theorem level (aligned : AlignedPt self b x y) : x.getLevel = min self.getLevel b.c0.level := by
  cases aligned with
  | ciphertext done target lower => rw [target.level, min_eq_right lower]
  | plaintext kept done target lower => rw [min_eq_left lower]

theorem degree (aligned : AlignedPt self b x y) (first : self.NoiseLevel = 1 ∨ self.NoiseLevel = 2)
    (second : b.NoiseLevel = 1 ∨ b.NoiseLevel = 2) : x.NoiseLevel = 1 ∨ x.NoiseLevel = 2 := by
  cases aligned with
  | ciphertext done target lower => rw [target.degree]; exact second
  | plaintext kept done target lower => exact first

end AlignedPt

omit [Mul F] [One F] in
/-- The rescale before an addition does not change which level is the lower one. -/
theorem stepDownTo_level (valid : self.Valid) (b : Plaintext cc) :
    min (self.stepDownTo b).getLevel b.c0.level = min self.getLevel b.c0.level := by
  rw [stepDownTo]
  split_ifs with step
  · have next := ((AdjustedTo.start self).rescaleInternal valid.level_le).level
    have start := step.2.2
    omega
  · rfl

/-- The sum calls itself at most once and then works on the aligned operands. -/
theorem withAdjustedPt_eq_finish (automatic : cc.rescaleTechnique.isAutomatic)
    (aligned : AlignedPt (self.stepDownTo b) b x y) (op : String)
    (finish : Ciphertext cc → Plaintext cc → Except Failure (Ciphertext cc)) (calls : Nat) :
    withAdjustedPt op finish (calls + 2) self b = finish x y := by
  cases aligned with
  | ciphertext done target lower => simp [withAdjustedPt, automatic, done]
  | plaintext kept done target lower =>
      have finished := withAdjustedPt_of_ready automatic target.level.symm target.degree.symm op
        finish calls
      rw [← finished, withAdjustedPt]
      simp [automatic, kept, done]

omit [Mul F] [One F] in
/-- A plaintext of degree two is rescaled. -/
theorem rescaledPt (possible : y.NoiseLevel = 1 ∨ y.NoiseLevel = 2) :
    ∃ z, (if y.NoiseLevel = 2 then y.rescale else .ok y) = .ok z ∧
      Plaintext.AdjustedTo 1 (y.c0.level - (y.NoiseLevel - 1)) y z := by
  have first := Plaintext.AdjustedTo.start y
  rcases possible with one | two
  · refine ⟨y, if_neg (by omega), first.congr one (by omega)⟩
  · obtain ⟨z, rescaled, next⟩ := first.rescale two.ge
    refine ⟨z, ?_, next.congr (by omega) (by omega)⟩
    rw [if_pos two, rescaled]

omit [Mul F] [One F] in
theorem reduceDegree_reaches (inside : x.getLevel ≤ cc.L)
    (possible : x.NoiseLevel = 1 ∨ x.NoiseLevel = 2) :
    AdjustedTo 1 (x.getLevel - (x.NoiseLevel - 1)) x x.reduceDegree := by
  have first := AdjustedTo.start x
  rcases possible with one | two
  · rw [reduceDegree_same (by omega)]
    exact first.congr one (by omega)
  · rw [reduceDegree, if_pos two]
    exact (first.rescaleInternal inside).congr (by omega) (by omega)

omit [One F] in
/-- An automatic technique ignores the flag of a ready product. -/
theorem multReadyPtWith_automatic (automatic : cc.rescaleTechnique.isAutomatic)
    (x : Ciphertext cc) (y : Plaintext cc) (rescale : Bool) :
    multReadyPtWith x y rescale = multReadyPt x y := by
  have notManual : ¬cc.rescaleTechnique = .fixedManual := by
    intro manual
    simp [manual, RescaleTechnique.isAutomatic] at automatic
  simp [multReadyPtWith, multReadyPt, notManual, multPolysPtWith_false]

theorem multPtWith_automatic (automatic : cc.rescaleTechnique.isAutomatic) (calls : Nat)
    (self : Ciphertext cc) (b : Plaintext cc) (rescale : Bool) :
    multPtWith calls self b rescale = multPt calls self b := by
  induction calls generalizing self b with
  | zero => rfl
  | succ calls ih =>
      rw [multPtWith, multPt]
      simp only [multReadyPtWith_automatic automatic, ih]

/-- The product rescales both aligned operands to degree one and then multiplies them. -/
theorem multPt_eq_ready (automatic : cc.rescaleTechnique.isAutomatic)
    (aligned : AlignedPt self b x y) (inside : x.getLevel ≤ cc.L)
    (possible : x.NoiseLevel = 1 ∨ x.NoiseLevel = 2) {z : Plaintext cc}
    (rescaled : (if y.NoiseLevel = 2 then y.rescale else .ok y) = .ok z)
    (target : Plaintext.AdjustedTo 1 (y.c0.level - (y.NoiseLevel - 1)) y z) (calls : Nat) :
    multPt (calls + 2) self b = multReadyPt x.reduceDegree z := by
  have reached := reduceDegree_reaches inside possible
  have levels : x.reduceDegree.getLevel = z.c0.level := by
    rw [reached.level, target.level, aligned.sameLevel, aligned.sameDegree]
  have finished := multPt_of_ready automatic levels reached.degree target.degree calls
  rw [multPt, if_pos automatic]
  cases aligned with
  | ciphertext done back lower =>
      rw [done]
      simp only [ok_bind, Bool.true_eq_false, false_or]
      by_cases one : b.NoiseLevel = 1
      · rw [if_neg (by omega)] at rescaled
        rw [if_neg (not_not.mpr one), Except.ok.inj rescaled]
      · have two : b.NoiseLevel = 2 := by
          have := back.degree
          omega
        have same := Plaintext.adjustPlaintextToCiphertext_same automatic back.level.symm
          back.degree.symm
        rw [if_pos two] at rescaled
        rw [if_pos one, same]
        simp [two, rescaled, finished]
  | plaintext kept done back lower =>
      rw [kept]
      by_cases two : y.NoiseLevel = 2
      · rw [if_pos two] at rescaled
        simp [done, two, rescaled, finished]
      · rw [if_neg two] at rescaled
        obtain rfl : y = z := Except.ok.inj rescaled
        simp [done, two, finished]

/-- A call ends on the given operands and leaves the objects of its caller. -/
structure EndsOn
    (call : Nat → Nat → Nat → Plaintexts cc → Except Failure (Ciphertext cc × Plaintexts cc))
    (finish : Ciphertext cc → Plaintext cc → Except Failure (Ciphertext cc)) (b : Plaintext cc)
    (x : Ciphertext cc) (y : Plaintext cc) : Prop where
  level : x.getLevel = y.c0.level
  degree : x.NoiseLevel = y.NoiseLevel
  returns : ∃ result, finish x y = .ok result ∧ result.getLevel = min x.getLevel y.c0.level ∧
    ∀ (calls address b_ : Nat) (objects : Plaintexts cc), address < b_ → objects address = b →
      ∃ after, call (calls + 2) address b_ objects = .ok (result, after) ∧
        ∀ other < b_, after other = objects other

/-- This is what the alignment of a ciphertext with a plaintext promises. -/
structure PlaintextAlignmentContract (self : Ciphertext cc) (b : Plaintext cc) : Prop where
  adjusts : ∀ (scaleDegree level : Int) (scaling_factor : F),
    scaleDegree = 1 ∨ scaleDegree = 2 → 2 ≤ level →
      ∃ result flag,
        b.adjustScaleAndLevel scaleDegree level scaling_factor = .ok (result, flag) ∧
          (flag = true → result.c0.level = level ∧ result.NoiseLevel = scaleDegree) ∧
          (flag = false → result = b)
  adds : ∃ x y, AlignedPt (self.stepDownTo b) b x y ∧ x.getLevel = min self.getLevel b.c0.level ∧
    EndsOn (fun calls => addPtAt calls self) (combinePt RNSPoly.add RNSPoly.add_level) b x y
  subtracts : ∃ x y, AlignedPt (self.stepDownTo b) b x y ∧
    x.getLevel = min self.getLevel b.c0.level ∧
    EndsOn (fun calls => subPtAt calls self) (combinePt RNSPoly.sub RNSPoly.sub_level) b x y
  multiplies : ∀ rescale, ∃ x y z, AlignedPt self b x y ∧
    (if y.NoiseLevel = 2 then y.rescale else .ok y) = .ok z ∧
    x.reduceDegree.NoiseLevel = 1 ∧ 1 ≤ x.reduceDegree.getLevel ∧
    EndsOn (fun calls => multPtAt rescale calls self)
      (fun x y => multReadyPtWith x y rescale) b x.reduceDegree z

omit [Mul F] [Div F] [One F] in
/-- A call that leaves the objects of its caller ends where its value says. -/
theorem EndsOn.of_leaves
    {call : Nat → Nat → Nat → Plaintexts cc → Except Failure (Ciphertext cc × Plaintexts cc)}
    {value : Nat → Plaintext cc → Except Failure (Ciphertext cc)}
    {finish : Ciphertext cc → Plaintext cc → Except Failure (Ciphertext cc)}
    (level : x.getLevel = y.c0.level) (degree : x.NoiseLevel = y.NoiseLevel)
    {result : Ciphertext cc} (finished : finish x y = .ok result)
    (kept : result.getLevel = x.getLevel) (ends : ∀ calls, value (calls + 2) b = finish x y)
    (leaves : ∀ calls address b_ objects, address < b_ →
      Leaves b_ objects (value calls (objects address)) (call calls address b_ objects)) :
    EndsOn call finish b x y := by
  refine ⟨level, degree, result, finished, ?_, ?_⟩
  · rw [kept, ← level, min_self]
  · intro calls address b_ objects owned operand
    obtain ⟨fst, unchanged⟩ := leaves (calls + 2) address b_ objects owned
    rw [operand, ends, finished] at fst
    cases outcome : call (calls + 2) address b_ objects with
    | error failure =>
        rw [outcome] at fst
        cases fst
    | ok pair =>
        rw [outcome] at fst
        have same : pair.1 = result := Except.ok.inj fst
        exact ⟨pair.2, by rw [← same], unchanged pair.1 pair.2 outcome⟩

omit [Mul F] [Div F] [One F] in
theorem addMetadataPt_self (level : x.getLevel = y.c0.level) (degree : x.NoiseLevel = y.NoiseLevel) :
    x.addMetadataPt x y = .ok { x with slots := max x.slots y.slots } := by
  rw [addMetadataPt, check_ok rfl, check_ok level,
    check_ok degree]
  simp only [ok_bind, ite_self]
  rfl

omit [Mul F] [Div F] [One F] in
/-- Aligned operands pass the checks of the final step. -/
theorem combinePt_returns {combine : RNSPoly cc → RNSPoly cc → RNSPoly cc}
    {keepsLevel : ∀ poly p, (combine poly p).level = poly.level}
    (level : x.getLevel = y.c0.level) (degree : x.NoiseLevel = y.NoiseLevel) :
    ∃ result, combinePt combine keepsLevel x y = .ok result ∧ result.getLevel = x.getLevel := by
  have lower : x.c0.level ≤ y.c0.level := level.le
  have combined : (combine x.c0 y.c0).level = y.c0.level := (keepsLevel _ _).trans level
  rw [combinePt, check_ok degree, check_ok lower]
  exact ⟨_, addMetadataPt_self combined degree, keepsLevel _ _⟩

omit [Div F] [One F] in
theorem multReadyPt_returns (one : x.NoiseLevel = 1) (other : y.NoiseLevel = 1) :
    ∃ result, multReadyPt x y = .ok result ∧ result.getLevel = x.getLevel := by
  have first : x.NoiseLevel < 2 := by omega
  have second : y.NoiseLevel < 2 := by omega
  rw [multReadyPt, check_ok first, check_ok second]
  simp only [ok_bind]
  rw [multMetadataPt, check_ok rfl]
  exact ⟨_, rfl, rfl⟩

/-- The sum and the difference end on the aligned operands. -/
theorem combinePt_endsOn {combine : RNSPoly cc → RNSPoly cc → RNSPoly cc}
    {keepsLevel : ∀ poly p, (combine poly p).level = poly.level}
    (automatic : cc.rescaleTechnique.isAutomatic) (aligned : AlignedPt (self.stepDownTo b) b x y)
    (op : String) :
    EndsOn (fun calls => withAdjustedPtAt op (combinePt combine keepsLevel) calls self)
      (combinePt combine keepsLevel) b x y := by
  obtain ⟨result, finished, kept⟩ :=
    @combinePt_returns F cc x y combine keepsLevel aligned.sameLevel aligned.sameDegree
  exact EndsOn.of_leaves aligned.sameLevel aligned.sameDegree finished kept
    (withAdjustedPt_eq_finish automatic aligned op _)
    fun calls _ _ _ owned => withAdjustedPtAt_leaves op _ calls self owned

/-- The operations of an automatic technique align every ciphertext with every plaintext. -/
theorem plaintext_alignment_contract (automatic : cc.rescaleTechnique.isAutomatic)
    (self : Ciphertext cc) (b : Plaintext cc) (valid : self.Valid)
    (possible : b.NoiseLevel = 1 ∨ b.NoiseLevel = 2) (roomSelf : 2 ≤ self.getLevel)
    (roomB : 2 ≤ b.c0.level) : PlaintextAlignmentContract self b := by
  have validB : ValidPlaintext b := ⟨by omega, possible⟩
  obtain ⟨x, y, stepped⟩ := exists_alignedPt automatic (valid.stepDownTo validB) possible
  have lower : x.getLevel = min self.getLevel b.c0.level := by
    rw [stepped.level, stepDownTo_level valid]
  refine ⟨?_, ⟨x, y, stepped, lower, combinePt_endsOn automatic stepped "addPt"⟩,
    ⟨x, y, stepped, lower, combinePt_endsOn automatic stepped "subPt"⟩, ?_⟩
  · intro scaleDegree level scaling_factor requested _
    by_cases reach : b.CanReach scaleDegree level
    · obtain ⟨result, done, target⟩ :=
        b.adjustScaleAndLevel_succeeds automatic possible requested scaling_factor reach
      exact ⟨result, true, done, fun _ => ⟨target.level, target.degree⟩, by simp⟩
    · exact ⟨b, false, Plaintext.adjustScaleAndLevel_fails automatic scaling_factor reach, by simp,
        fun _ => rfl⟩
  · intro rescale
    obtain ⟨x, y, aligned⟩ := exists_alignedPt automatic valid possible
    have degree := aligned.degree (valid.degree automatic) possible
    have level := aligned.level
    have chain := valid.level_le
    have inside : x.getLevel ≤ cc.L := by omega
    obtain ⟨z, rescaled, target⟩ := rescaledPt (aligned.sameDegree ▸ degree)
    have reached := reduceDegree_reaches inside degree
    have levels : x.reduceDegree.getLevel = z.c0.level := by
      rw [reached.level, target.level, aligned.sameLevel, aligned.sameDegree]
    have room : 1 ≤ x.reduceDegree.getLevel := by
      rw [reached.level]
      omega
    obtain ⟨result, finished, kept⟩ := multReadyPt_returns reached.degree target.degree
    have flag := multReadyPtWith_automatic automatic x.reduceDegree z rescale
    have ends : ∀ calls, multPtWith (calls + 2) self b rescale =
        multReadyPtWith x.reduceDegree z rescale := by
      intro calls
      rw [multPtWith_automatic automatic, flag]
      exact multPt_eq_ready automatic aligned inside degree rescaled target calls
    exact ⟨x, y, z, aligned, rescaled, reached.degree, room,
      @EndsOn.of_leaves F cc _ _ _ _ (fun calls pt => multPtWith calls self pt rescale) _ levels
        (reached.degree.trans target.degree.symm) _ (flag.trans finished) kept ends
        fun calls _ _ _ owned => multPtAt_leaves rescale calls self owned⟩

theorem plaintext_alignment_contract_smallContext :
    PlaintextAlignmentContract (zeroAt (smallContext .flexibleAuto true) 3 2)
      ⟨(zeroAt (smallContext .flexibleAuto true) 2 1).c0, 1, 3, 1⟩ :=
  plaintext_alignment_contract rfl _ _ ⟨by decide, by decide, fun _ => Or.inr rfl⟩ (Or.inl rfl)
    (by decide) (by decide)

end Ciphertext
end Fideslib.CKKS
