/-
This file models the operations whose second operand is the receiver itself.
-/

import Fideslib.CKKS.OperandAlignment

namespace Fideslib.CKKS
namespace Ciphertext

open ContextData (check_ok)

variable {F : Type} [Mul F] [Div F] [One F] {cc : ContextData F}

/-- Every read of the second operand sees what the operation has already written. -/
def withAdjustedSelf (op : String)
    (finishSelf : Ciphertext cc → Except Failure (Ciphertext cc))
    (finish : Ciphertext cc → Ciphertext cc → Except Failure (Ciphertext cc)) :
    Nat → Ciphertext cc → Except Failure (Ciphertext cc)
  | 0, _ => .error .exhausted
  | calls + 1, self => do
      cc.check (self.keyID = self.keyID) "keyID == b.keyID"
      if cc.rescaleTechnique.isAutomatic then
        let (adjusted, ok) ← self.adjustForAddOrSub self
        if ok then finishSelf adjusted
        else
          let (b_, adjustedToo) ← adjusted.adjustForAddOrSub adjusted
          if adjustedToo then withAdjusted op finish calls adjusted b_
          else .error (.adjust op adjusted.getLevel adjusted.NoiseLevel adjusted.getLevel
            adjusted.NoiseLevel "ciphertext")
      else finishSelf self

def addAlignedSelf (self : Ciphertext cc) : Except Failure (Ciphertext cc) := do
  let lowered ← self.dropForAdd self
  let sum ← lowered.addPolys lowered
  sum.addMetadata sum sum

def subAlignedSelf (self : Ciphertext cc) : Except Failure (Ciphertext cc) := do
  let lowered ← self.dropForSub self
  let difference ← lowered.subPolys lowered
  difference.addMetadata difference difference

def addSelf (calls : Nat) (self : Ciphertext cc) : Except Failure (Ciphertext cc) :=
  withAdjustedSelf "add" addAlignedSelf addAligned calls self

def subSelf (calls : Nat) (self : Ciphertext cc) : Except Failure (Ciphertext cc) :=
  withAdjustedSelf "sub" subAlignedSelf subAligned calls self

/-- The mutable form adjusts the one object twice when the first attempt fails. -/
def withBothAdjustedSelf (op operandKind : String)
    (drop : Ciphertext cc → Ciphertext cc → Except Failure (Ciphertext cc))
    (finishSelf : Ciphertext cc → Except Failure (Ciphertext cc)) (self : Ciphertext cc) :
    Except Failure (Ciphertext cc) := do
  cc.check (self.keyID = self.keyID) "keyID == b.keyID"
  if cc.rescaleTechnique.isAutomatic then
    let (adjusted, ok) ← self.adjustForAddOrSub self
    if ok then
      let lowered ← drop adjusted adjusted
      finishSelf lowered
    else
      let (both, adjustedToo) ← adjusted.adjustForAddOrSub adjusted
      if adjustedToo then finishSelf both
      else .error (.adjust op both.getLevel both.NoiseLevel both.getLevel both.NoiseLevel
        operandKind)
  else
    let lowered ← drop self self
    finishSelf lowered

def addMutableSelf : Nat → Ciphertext cc → Except Failure (Ciphertext cc)
  | 0, _ => .error .exhausted
  | calls + 1, self =>
      withBothAdjustedSelf "addMutable" "ciphertext" dropForAdd (addSelf calls) self

def subMutableSelf : Nat → Ciphertext cc → Except Failure (Ciphertext cc)
  | 0, _ => .error .exhausted
  | calls + 1, self => withBothAdjustedSelf "addPt" "plaintext" dropForSub (subSelf calls) self

/-- The kernel of the product is told that both factors are one object. -/
def multAlignedSelf (keys : String → Option (EvalKey cc)) (self : Ciphertext cc) (rescale : Bool) :
    Except Failure (Ciphertext cc) := do
  cc.check (self.NoiseLevel = 1) "NoiseLevel == 1"
  cc.check (self.NoiseLevel = self.NoiseLevel) "NoiseLevel == b.NoiseLevel"
  match keys self.keyID with
  | none => .error (.noEvaluationKey self.keyID)
  | some kskEval =>
      let parts := RNSPoly.binomialSquare self.c0 self.c1
      let switched := kskEval.keySwitchCore parts.2.2
      cc.check (parts.1.level ≤ switched.1.level) "level <= p.level"
      cc.check (parts.2.1.level ≤ switched.2.level) "level <= p.level"
      let squared : Ciphertext cc := { self with
        c0 := parts.1.add switched.1
        c1 := parts.2.1.add switched.2
        sameLevel := self.sameLevel }
      let product ← squared.multMetadata squared self
      return if rescale ∧ cc.rescaleTechnique = .fixedManual then product.rescaleInternal
        else product

/-- The copy of the second operand is taken after the receiver was rescaled. -/
def multSelf (keys : String → Option (EvalKey cc)) :
    Nat → Ciphertext cc → Bool → Except Failure (Ciphertext cc)
  | 0, _, _ => .error .exhausted
  | calls + 1, self, rescale => do
      cc.check (self.keyID = self.keyID) "keyID == b.keyID"
      let self := self.adoptKey self
      if cc.rescaleTechnique.isAutomatic then
        let (adjusted, ok) ← self.adjustForAddOrSub self
        if ok then
          if adjusted.NoiseLevel = 2 then
            let reduced := adjusted.rescaleInternal
            mult keys calls reduced reduced.rescaleInternal rescale
          else multAlignedSelf keys adjusted rescale
        else
          let (b_owned, adjustedToo) ← adjusted.adjustForAddOrSub adjusted
          if adjustedToo then
            if adjusted.NoiseLevel = 2 then
              mult keys calls adjusted.rescaleInternal b_owned.rescaleInternal rescale
            else mult keys calls adjusted b_owned rescale
          else .error (.adjust "mult" adjusted.getLevel adjusted.NoiseLevel adjusted.getLevel
            adjusted.NoiseLevel "ciphertext")
      else multAlignedSelf keys self rescale

/-- A ciphertext of degree two is rescaled once as the receiver and once as the operand. -/
def multMutableSelf (keys : String → Option (EvalKey cc)) :
    Nat → Ciphertext cc → Bool → Except Failure (Ciphertext cc)
  | 0, _, _ => .error .exhausted
  | calls + 1, self, rescale => do
      cc.check (self.keyID = self.keyID) "keyID == b.keyID"
      let self := self.adoptKey self
      let both ←
        if cc.rescaleTechnique.isAutomatic then do
          let (adjusted, ok) ← self.adjustForAddOrSub self
          let aligned ←
            if ok then pure adjusted
            else do
              let (again, adjustedToo) ← adjusted.adjustForAddOrSub adjusted
              if adjustedToo then pure again
              else .error (.adjust "mult" again.getLevel again.NoiseLevel again.getLevel
                again.NoiseLevel "ciphertext")
          pure (if aligned.NoiseLevel = 2 then aligned.rescaleInternal.rescaleInternal else aligned)
        else pure self
      cc.check (both.NoiseLevel = 1) "NoiseLevel == 1"
      cc.check (both.NoiseLevel = both.NoiseLevel) "NoiseLevel == b.NoiseLevel"
      multSelf keys calls both rescale

variable {self : Ciphertext cc}

theorem dropForAdd_self (self : Ciphertext cc) : self.dropForAdd self = .ok self := by
  by_cases flexible : cc.rescaleTechnique.isFlexible
  · simp [dropForAdd, flexible, check_ok]
  · simp [dropForAdd, flexible]

omit [Mul F] [Div F] [One F] in
theorem dropForSub_self (self : Ciphertext cc) : self.dropForSub self = .ok self := by
  by_cases flexible : cc.rescaleTechnique.isFlexible
  · simp [dropForSub, flexible, check_ok]
  · simp [dropForSub, flexible]

/-- The metadata of the sum are those of the operand, so they may be read after the sum. -/
theorem addAlignedSelf_eq (self : Ciphertext cc) : self.addAlignedSelf = self.addAligned self := by
  simp only [addAlignedSelf, addAligned, dropForAdd_self, ok_bind, addPolys,
    check_ok (le_refl self.c0.level), check_ok (le_refl self.c1.level)]
  rfl

omit [Mul F] [Div F] [One F] in
theorem subAlignedSelf_eq (self : Ciphertext cc) : self.subAlignedSelf = self.subAligned self := by
  simp only [subAlignedSelf, subAligned, dropForSub_self, ok_bind, subPolys,
    check_ok (le_refl self.c0.level), check_ok (le_refl self.c1.level)]
  rfl

/-- An operand needs no adjustment to itself, so the aliased form agrees with the other. -/
theorem withAdjustedSelf_eq (op : String)
    {finishSelf : Ciphertext cc → Except Failure (Ciphertext cc)}
    {finish : Ciphertext cc → Ciphertext cc → Except Failure (Ciphertext cc)}
    (agree : ∀ x, finishSelf x = finish x x) (calls : Nat) (self : Ciphertext cc) :
    withAdjustedSelf op finishSelf finish calls self = withAdjusted op finish calls self self := by
  cases calls with
  | zero => rfl
  | succ calls =>
      by_cases automatic : cc.rescaleTechnique.isAutomatic
      · have same : self.adjustForAddOrSub self = .ok (self, true) :=
          adjustForAddOrSub_same automatic rfl rfl
        simp only [withAdjustedSelf, withAdjusted, automatic, if_true, same, ok_bind, agree]
      · simp only [withAdjustedSelf, withAdjusted, automatic, agree]
        rfl

theorem addSelf_eq_add (calls : Nat) (self : Ciphertext cc) :
    addSelf calls self = add calls self self :=
  withAdjustedSelf_eq "add" addAlignedSelf_eq calls self

theorem subSelf_eq_sub (calls : Nat) (self : Ciphertext cc) :
    subSelf calls self = sub calls self self :=
  withAdjustedSelf_eq "sub" subAlignedSelf_eq calls self

/-- The mutable form of one object is its final step. -/
theorem withBothAdjustedSelf_eq (op operandKind : String)
    {drop : Ciphertext cc → Ciphertext cc → Except Failure (Ciphertext cc)}
    (dropped : ∀ x, drop x x = .ok x)
    (finishSelf : Ciphertext cc → Except Failure (Ciphertext cc)) (self : Ciphertext cc) :
    withBothAdjustedSelf op operandKind drop finishSelf self = finishSelf self := by
  by_cases automatic : cc.rescaleTechnique.isAutomatic
  · have same : self.adjustForAddOrSub self = .ok (self, true) :=
      adjustForAddOrSub_same automatic rfl rfl
    simp [withBothAdjustedSelf, check_ok, automatic, same, dropped]
  · simp [withBothAdjustedSelf, check_ok, automatic, dropped]

/-- Two calls already finish the operation on one object. -/
theorem withAdjusted_self (op : String)
    (finish : Ciphertext cc → Ciphertext cc → Except Failure (Ciphertext cc)) (calls : Nat)
    (self : Ciphertext cc) : withAdjusted op finish (calls + 1) self self = finish self self := by
  by_cases automatic : cc.rescaleTechnique.isAutomatic
  · exact withAdjusted_of_ready automatic (check_ok rfl) rfl rfl op finish calls
  · simp [withAdjusted, check_ok, automatic]

theorem addMutableSelf_eq_add {calls : Nat} (enough : 2 ≤ calls) (self : Ciphertext cc) :
    addMutableSelf calls self = add calls self self := by
  obtain ⟨calls, rfl⟩ := Nat.exists_eq_add_of_le' enough
  rw [addMutableSelf, withBothAdjustedSelf_eq _ _ dropForAdd_self, addSelf_eq_add, add, add,
    withAdjusted_self, withAdjusted_self]

theorem subMutableSelf_eq_sub {calls : Nat} (enough : 2 ≤ calls) (self : Ciphertext cc) :
    subMutableSelf calls self = sub calls self self := by
  obtain ⟨calls, rfl⟩ := Nat.exists_eq_add_of_le' enough
  rw [subMutableSelf, withBothAdjustedSelf_eq _ _ dropForSub_self, subSelf_eq_sub, sub, sub,
    withAdjusted_self, withAdjusted_self]

omit [One F] in
/-- The product repeats the checks of the mutable form. -/
theorem multAligned_checks (keys : String → Option (EvalKey cc)) {x y : Ciphertext cc}
    (low : x.getLevel ≤ y.getLevel ∨
      ¬(cc.rescaleTechnique = .fixedManual ∨ cc.rescaleTechnique = .fixedAuto)) (rescale : Bool) :
    (do cc.check (x.NoiseLevel = 1) "NoiseLevel == 1"
        cc.check (x.NoiseLevel = y.NoiseLevel) "NoiseLevel == b.NoiseLevel"
        multAligned keys x y rescale) = multAligned keys x y rescale := by
  have kept : ¬((cc.rescaleTechnique = .fixedManual ∨ cc.rescaleTechnique = .fixedAuto) ∧
      x.getLevel > y.getLevel) := by
    rintro ⟨fixed, above⟩
    rcases low with low | notFixed
    · exact absurd above (not_lt.mpr low)
    · exact notFixed fixed
  rw [multAligned, if_neg kept]
  cases one : cc.check (x.NoiseLevel = 1) "NoiseLevel == 1" with
  | error failure => simp
  | ok _ =>
      cases same : cc.check (x.NoiseLevel = y.NoiseLevel) "NoiseLevel == b.NoiseLevel" with
      | error failure => simp
      | ok _ => simp only [ok_bind]

/-- A factor that needs no rescale is multiplied with itself at once. -/
theorem mult_self (keys : String → Option (EvalKey cc))
    (single : cc.rescaleTechnique.isAutomatic → self.NoiseLevel ≠ 2) (calls : Nat)
    (rescale : Bool) :
    mult keys (calls + 1) self self rescale = multAligned keys self self rescale := by
  by_cases automatic : cc.rescaleTechnique.isAutomatic
  · have same : self.adjustForAddOrSub self = .ok (self, true) :=
      adjustForAddOrSub_same automatic rfl rfl
    have ready : self.alignForMult self = .ok (self, none) := by
      simp [alignForMult, same, single automatic]
      rfl
    simp [mult, check_ok, adoptKey_same, automatic, ready]
  · simp [mult, check_ok, adoptKey_same, automatic]

omit [One F] in
/-- The square is the product of a ciphertext with itself. -/
theorem multAlignedSelf_eq (keys : String → Option (EvalKey cc)) (self : Ciphertext cc)
    (rescale : Bool) : multAlignedSelf keys self rescale = multAligned keys self self rescale := by
  cases found : keys self.keyID <;>
    simp only [multAligned, gt_iff_lt, lt_irrefl, and_false, if_false, multAlignedSelf, found,
      RNSPoly.binomialSquare_eq, relinearize]

theorem multSelf_eq_multAligned (keys : String → Option (EvalKey cc))
    (single : cc.rescaleTechnique.isAutomatic → self.NoiseLevel ≠ 2) (calls : Nat)
    (rescale : Bool) :
    multSelf keys (calls + 1) self rescale = multAligned keys self self rescale := by
  by_cases automatic : cc.rescaleTechnique.isAutomatic
  · have same : self.adjustForAddOrSub self = .ok (self, true) :=
      adjustForAddOrSub_same automatic rfl rfl
    simp [multSelf, multAlignedSelf_eq, check_ok, adoptKey_same, automatic, same,
      single automatic]
  · simp [multSelf, multAlignedSelf_eq, check_ok, adoptKey_same, automatic]

/-- The mutable product of one object is the product unless it has to be rescaled. -/
theorem multMutableSelf_eq_mult (keys : String → Option (EvalKey cc))
    (single : cc.rescaleTechnique.isAutomatic → self.NoiseLevel ≠ 2) {calls : Nat}
    (enough : 2 ≤ calls) (rescale : Bool) :
    multMutableSelf keys calls self rescale = mult keys calls self self rescale := by
  obtain ⟨calls, rfl⟩ := Nat.exists_eq_add_of_le' enough
  have checked := multAligned_checks keys (Or.inl (le_refl self.getLevel)) rescale
  rw [mult_self keys single, ← checked]
  by_cases automatic : cc.rescaleTechnique.isAutomatic
  · have same : self.adjustForAddOrSub self = .ok (self, true) :=
      adjustForAddOrSub_same automatic rfl rfl
    simp [multMutableSelf, check_ok, adoptKey_same, automatic, same, single automatic,
      multSelf_eq_multAligned keys single]
  · simp [multMutableSelf, check_ok, adoptKey_same, automatic,
      multSelf_eq_multAligned keys single]

omit [Div F] [One F] in
theorem multMetadata_degree {a b result : Ciphertext cc}
    (done : self.multMetadata a b = .ok result) :
    result.NoiseLevel = a.NoiseLevel + b.NoiseLevel := by
  by_cases flexible : cc.rescaleTechnique.isFlexible
  · simp only [multMetadata, flexible, if_true, bind_eq_ok] at done
    obtain ⟨_, -, _, -, _, -, same⟩ := done
    rw [← Except.ok.inj same]
  · simp only [multMetadata, flexible, Bool.false_eq_true, if_false, bind_eq_ok] at done
    obtain ⟨_, -, _, -, same⟩ := done
    rw [← Except.ok.inj same]

omit [One F] in
/-- A product needs its key, and its degree is the sum of the degrees of its factors. -/
theorem multAligned_degree {keys : String → Option (EvalKey cc)} {x y result : Ciphertext cc}
    (done : multAligned keys x y false = .ok result) :
    keys x.keyID ≠ none ∧ result.NoiseLevel = x.NoiseLevel + y.NoiseLevel := by
  rw [multAligned] at done
  generalize start_eq : (if (cc.rescaleTechnique = .fixedManual ∨ cc.rescaleTechnique = .fixedAuto) ∧
    x.getLevel > y.getLevel then x.dropPolys y.getLevel else x) = start at done
  have kept : start.keyID = x.keyID ∧ start.NoiseLevel = x.NoiseLevel := by
    rw [← start_eq]
    split_ifs <;> exact ⟨rfl, rfl⟩
  rw [← kept.1, ← kept.2]
  simp only [bind_eq_ok] at done
  obtain ⟨_, -, _, -, done⟩ := done
  cases found : keys start.keyID with
  | none => simp [found] at done
  | some kskEval =>
      simp only [found, bind_eq_ok] at done
      obtain ⟨_, -, _, -, product, metadata, same⟩ := done
      have degree := multMetadata_degree metadata
      have result_eq : product = result := by simpa [pure, Except.pure] using same
      rw [← result_eq, degree]
      exact ⟨by simp, rfl⟩

/-- The double rescale leaves degree zero, so the mutable product of one object never returns the
product. -/
theorem multMutableSelf_degree (keys : String → Option (EvalKey cc))
    (automatic : cc.rescaleTechnique.isAutomatic) (two : self.NoiseLevel = 2) {calls : Nat}
    {result : Ciphertext cc} (done : multMutableSelf keys (calls + 2) self false = .ok result) :
    keys self.keyID ≠ none ∧ result.NoiseLevel = 0 := by
  have same : self.adjustForAddOrSub self = .ok (self, true) :=
    adjustForAddOrSub_same automatic rfl rfl
  let both := self.rescaleInternal.rescaleInternal
  have zero : both.NoiseLevel = 0 := by
    change self.NoiseLevel - 1 - 1 = 0
    omega
  have single : both.NoiseLevel ≠ 2 := by omega
  have product := multSelf_eq_multAligned keys (fun _ => single) calls false
  rw [multMutableSelf] at done
  simp only [adoptKey_same, automatic, same, if_true, ok_bind, bind_eq_ok] at done
  obtain ⟨_, -, aligned, kept, reached, reduced, _, -, _, -, done⟩ := done
  have start : self = aligned := Except.ok.inj kept
  rw [← start, if_pos two] at reduced
  have twice : both = reached := Except.ok.inj reduced
  rw [← twice, product] at done
  obtain ⟨found, degree⟩ := multAligned_degree done
  exact ⟨found, by omega⟩

theorem aligned_self (automatic : cc.rescaleTechnique.isAutomatic) :
    Aligned (self.adoptKey self) self self self := by
  rw [adoptKey_same rfl]
  exact .first (adjustForAddOrSub_same automatic rfl rfl) (AdjustedTo.start self)

/-- The product of one object of degree two returns unless its key is missing. -/
theorem mult_self_two (keys : String → Option (EvalKey cc))
    (automatic : cc.rescaleTechnique.isAutomatic) (two : self.NoiseLevel = 2) (calls : Nat) :
    (keys self.keyID = none ∧
        mult keys (calls + 2) self self false = .error (.noEvaluationKey self.keyID)) ∨
      ∃ result, mult keys (calls + 2) self self false = .ok result ∧ result.NoiseLevel = 2 := by
  have one := reduceDegree_degree (Or.inr two)
  have product := mult_eq_multAligned automatic keys (check_ok rfl)
    (aligned_self automatic) (Or.inr two) calls false
  rw [product]
  rcases multAligned_returns keys rfl rfl one one false with ⟨missing, failed⟩ | ⟨result, done⟩
  · left
    simpa using And.intro missing failed
  · right
    have degree := (multAligned_degree done).2
    exact ⟨result, done, by omega⟩

end Ciphertext
end Fideslib.CKKS
