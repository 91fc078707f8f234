/-
This file models the plaintext objects that the calls of an aligned operation read and write.
-/

import Mathlib.Logic.Function.Basic
import Fideslib.CKKS.RescaleFlag

namespace Fideslib.CKKS

variable {F : Type} [Mul F] [Div F] [One F] {cc : ContextData F}

/-- The plaintext objects are told apart by their addresses. -/
abbrev Plaintexts (cc : ContextData F) := Nat → Plaintext cc

/-- The object `self` copies the operand unless it is the operand. -/
def Plaintexts.adjustPlaintextToCiphertext (objects : Plaintexts cc) (self p : Nat)
    (c : Ciphertext cc) : Except Failure (Plaintexts cc × Bool) :=
  if cc.rescaleTechnique.isAutomatic then do
    let copied := if self ≠ p then Function.update objects self (objects p) else objects
    let (adjusted, ok) ← (copied self).adjustScaleAndLevel c.NoiseLevel c.getLevel c.NoiseFactor
    return (Function.update copied self adjusted, ok)
  else .ok (objects, false)

def Plaintexts.rescaleDegreeTwo (objects : Plaintexts cc) (self : Nat) :
    Except Failure (Plaintexts cc) :=
  if (objects self).NoiseLevel = 2 then do
    return Function.update objects self (← (objects self).rescale)
  else .ok objects

omit [Mul F] [Div F] [One F] in
theorem RNSPoly.add_level (poly p : RNSPoly cc) : (poly.add p).level = poly.level := rfl

omit [Mul F] [Div F] [One F] in
theorem RNSPoly.sub_level (poly p : RNSPoly cc) : (poly.sub p).level = poly.level := rfl

namespace Ciphertext

/-- A call that adjusts its operand owns the next address, and the caller owns those below it. -/
def withAdjustedPtAt (op : String)
    (finish : Ciphertext cc → Plaintext cc → Except Failure (Ciphertext cc)) :
    Nat → Ciphertext cc → Nat → Nat → Plaintexts cc → Except Failure (Ciphertext cc × Plaintexts cc)
  | 0, _, _, _, _ => .error .exhausted
  | calls + 1, self, b, b_, objects =>
      if cc.rescaleTechnique.isAutomatic then do
        let (adjusted, ok) ← (self.stepDownTo (objects b)).adjustCiphertextToPlaintext (objects b)
        if ok then return (← finish adjusted (objects b), objects)
        else
          let (objects_, adjustedToo) ← objects.adjustPlaintextToCiphertext b_ b adjusted
          if adjustedToo then withAdjustedPtAt op finish calls adjusted b_ (b_ + 1) objects_
          else .error (.adjust op adjusted.getLevel adjusted.NoiseLevel (objects b).c0.level
            (objects b).NoiseLevel "plaintext")
      else return (← finish self (objects b), objects)

def addPtAt : Nat → Ciphertext cc → Nat → Nat → Plaintexts cc →
    Except Failure (Ciphertext cc × Plaintexts cc) :=
  withAdjustedPtAt "addPt" (combinePt RNSPoly.add RNSPoly.add_level)

def subPtAt : Nat → Ciphertext cc → Nat → Nat → Plaintexts cc →
    Except Failure (Ciphertext cc × Plaintexts cc) :=
  withAdjustedPtAt "subPt" (combinePt RNSPoly.sub RNSPoly.sub_level)

def multPtAt (rescale : Bool) : Nat → Ciphertext cc → Nat → Nat → Plaintexts cc →
    Except Failure (Ciphertext cc × Plaintexts cc)
  | 0, _, _, _, _ => .error .exhausted
  | calls + 1, self, b, b_, objects =>
      if cc.rescaleTechnique.isAutomatic then do
        let (adjusted, ok) ← self.adjustCiphertextToPlaintext (objects b)
        if ok = false ∨ (objects b).NoiseLevel ≠ 1 then
          let (objects_, adjustedToo) ← objects.adjustPlaintextToCiphertext b_ b adjusted
          if adjustedToo then
            let rescaled ← objects_.rescaleDegreeTwo b_
            multPtAt rescale calls adjusted.reduceDegree b_ (b_ + 1) rescaled
          else .error (.adjust "multPt" adjusted.getLevel adjusted.NoiseLevel (objects b).c0.level
            (objects b).NoiseLevel "plaintext")
        else return (← multReadyPtWith adjusted.reduceDegree (objects b) rescale, objects)
      else return (← multReadyPtWith self (objects b) rescale, objects)

/-- The outcome has the given value, and no object below the address has changed. -/
structure Leaves (b_ : Nat) (objects : Plaintexts cc) (value : Except Failure (Ciphertext cc))
    (outcome : Except Failure (Ciphertext cc × Plaintexts cc)) : Prop where
  value : Prod.fst <$> outcome = value
  kept : ∀ result after, outcome = .ok (result, after) →
    ∀ address < b_, after address = objects address

namespace Leaves

variable {b_ : Nat} {objects other : Plaintexts cc} {value : Except Failure (Ciphertext cc)}
  {outcome : Except Failure (Ciphertext cc × Plaintexts cc)}

omit [Mul F] [Div F] [One F] in
theorem failed (failure : Failure) : Leaves b_ objects (.error failure) (.error failure) :=
  ⟨rfl, fun _ _ done => by cases done⟩

omit [Mul F] [Div F] [One F] in
theorem returned (value : Except Failure (Ciphertext cc)) :
    Leaves b_ objects value (do return (← value, objects)) := by
  cases value with
  | error failure => exact failed failure
  | ok result =>
      refine ⟨rfl, ?_⟩
      intro final after done address _
      cases done
      rfl

omit [Mul F] [Div F] [One F] in
/-- A callee that owns later objects leaves those of its caller. -/
theorem weaken (later : Leaves (b_ + 1) other value outcome)
    (same : ∀ address < b_, other address = objects address) :
    Leaves b_ objects value outcome := by
  refine ⟨later.value, ?_⟩
  intro result after done address below
  rw [later.kept result after done address (by omega), same address below]

end Leaves

variable {b b_ : Nat} {objects : Plaintexts cc}

/-- The adjustment of a copy writes the new object only. -/
theorem adjustPlaintextToCiphertext_copy (automatic : cc.rescaleTechnique.isAutomatic)
    (apart : b_ ≠ b) (c : Ciphertext cc) :
    objects.adjustPlaintextToCiphertext b_ b c =
      (fun adjusted => (Function.update objects b_ adjusted.1, adjusted.2)) <$>
        (objects b).adjustPlaintextToCiphertext c := by
  simp only [Plaintexts.adjustPlaintextToCiphertext, Plaintext.adjustPlaintextToCiphertext,
    if_pos automatic, if_pos apart, Function.update_self, Function.update_idem]
  cases (objects b).adjustScaleAndLevel c.NoiseLevel c.getLevel c.NoiseFactor with
  | error failure => rfl
  | ok adjusted => rfl

omit [Mul F] [One F] in
/-- The rescale of a new object works on its plaintext. -/
theorem rescaleDegreeTwo_update (plaintext : Plaintext cc) :
    Plaintexts.rescaleDegreeTwo (Function.update objects b_ plaintext) b_ =
      Function.update objects b_ <$>
        if plaintext.NoiseLevel = 2 then plaintext.rescale else .ok plaintext := by
  simp only [Plaintexts.rescaleDegreeTwo, Function.update_self, Function.update_idem]
  by_cases two : plaintext.NoiseLevel = 2
  · rw [if_pos two, if_pos two]
    cases plaintext.rescale <;> rfl
  · rw [if_neg two, if_neg two]
    rfl

/-- The sum and the difference over the objects are those over the plaintexts. -/
theorem withAdjustedPtAt_leaves (op : String)
    (finish : Ciphertext cc → Plaintext cc → Except Failure (Ciphertext cc)) (calls : Nat)
    (self : Ciphertext cc) (owned : b < b_) :
    Leaves b_ objects (withAdjustedPt op finish calls self (objects b))
      (withAdjustedPtAt op finish calls self b b_ objects) := by
  induction calls generalizing self b b_ objects with
  | zero => exact Leaves.failed _
  | succ calls ih =>
      rw [withAdjustedPt, withAdjustedPtAt]
      by_cases automatic : cc.rescaleTechnique.isAutomatic
      · rw [if_pos automatic, if_pos automatic]
        cases (self.stepDownTo (objects b)).adjustCiphertextToPlaintext (objects b) with
        | error failure => exact Leaves.failed failure
        | ok outcome =>
            obtain ⟨adjusted, ok⟩ := outcome
            simp only [ok_bind, adjustPlaintextToCiphertext_copy automatic owned.ne']
            cases ok with
            | true => exact Leaves.returned _
            | false =>
                cases (objects b).adjustPlaintextToCiphertext adjusted with
                | error failure => exact Leaves.failed failure
                | ok outcome =>
                    obtain ⟨plaintext, adjustedToo⟩ := outcome
                    cases adjustedToo with
                    | false => exact Leaves.failed _
                    | true =>
                        have later := @ih b_ (b_ + 1) (Function.update objects b_ plaintext)
                          adjusted (Nat.lt_succ_self b_)
                        rw [Function.update_self] at later
                        exact later.weaken fun address below =>
                          Function.update_of_ne below.ne _ _
      · rw [if_neg automatic, if_neg automatic]
        exact Leaves.returned _

theorem multPtAt_leaves (rescale : Bool) (calls : Nat) (self : Ciphertext cc) (owned : b < b_) :
    Leaves b_ objects (multPtWith calls self (objects b) rescale)
      (multPtAt rescale calls self b b_ objects) := by
  induction calls generalizing self b b_ objects with
  | zero => exact Leaves.failed _
  | succ calls ih =>
      rw [multPtWith, multPtAt]
      by_cases automatic : cc.rescaleTechnique.isAutomatic
      · rw [if_pos automatic, if_pos automatic]
        cases self.adjustCiphertextToPlaintext (objects b) with
        | error failure => exact Leaves.failed failure
        | ok outcome =>
            obtain ⟨adjusted, ok⟩ := outcome
            simp only [ok_bind, adjustPlaintextToCiphertext_copy automatic owned.ne']
            by_cases again : ok = false ∨ (objects b).NoiseLevel ≠ 1
            · rw [if_pos again, if_pos again]
              cases (objects b).adjustPlaintextToCiphertext adjusted with
              | error failure => exact Leaves.failed failure
              | ok outcome =>
                  obtain ⟨plaintext, adjustedToo⟩ := outcome
                  cases adjustedToo with
                  | false => exact Leaves.failed _
                  | true =>
                      have called (reduced : Plaintext cc) : Leaves b_ objects
                          (multPtWith calls adjusted.reduceDegree reduced rescale)
                          (multPtAt rescale calls adjusted.reduceDegree b_ (b_ + 1)
                            (Function.update objects b_ reduced)) := by
                        have later := @ih b_ (b_ + 1) (Function.update objects b_ reduced)
                          adjusted.reduceDegree (Nat.lt_succ_self b_)
                        rw [Function.update_self] at later
                        exact later.weaken fun address below => Function.update_of_ne below.ne _ _
                      change Leaves b_ objects
                        (if plaintext.NoiseLevel = 2 then do
                          let reduced ← plaintext.rescale
                          multPtWith calls adjusted.reduceDegree reduced rescale
                        else multPtWith calls adjusted.reduceDegree plaintext rescale)
                        (do
                          let rescaled ←
                            Plaintexts.rescaleDegreeTwo (Function.update objects b_ plaintext) b_
                          multPtAt rescale calls adjusted.reduceDegree b_ (b_ + 1) rescaled)
                      rw [rescaleDegreeTwo_update]
                      by_cases two : plaintext.NoiseLevel = 2
                      · rw [if_pos two, if_pos two]
                        cases plaintext.rescale with
                        | error failure => exact Leaves.failed failure
                        | ok reduced => exact called reduced
                      · rw [if_neg two, if_neg two]
                        exact called plaintext
            · rw [if_neg again, if_neg again]
              exact Leaves.returned _
      · rw [if_neg automatic, if_neg automatic]
        exact Leaves.returned _

end Ciphertext
end Fideslib.CKKS
