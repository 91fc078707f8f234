/-
This file proves when a product of one object with itself is the product with a copy.
-/

import Fideslib.CKKS.MutableForms

namespace Fideslib.CKKS
namespace Ciphertext

open ContextData (check_ok)

variable {F : Type} [Mul F] [Div F] [One F] {cc : ContextData F}

/-- The square passes the receiver itself as the second operand. -/
def squareSelf (keys : String → Option (EvalKey cc)) (calls : Nat) (self : Ciphertext cc)
    (rescale : Bool) : Except Failure (Ciphertext cc) := do
  let ready :=
    if cc.rescaleTechnique.isAutomatic ∧ self.NoiseLevel = 2 then self.rescaleInternal else self
  cc.check (ready.NoiseLevel = 1) "this->NoiseLevel == 1"
  multSelf keys calls ready rescale

/-- An operation with two operands writes into another object or into its first operand. -/
inductive Receiver
  | other
  | operand
deriving DecidableEq

/-- Both operands are one object. Another receiver takes a copy and reads the object after that. -/
def multBothSelf (keys : String → Option (EvalKey cc)) (calls : Nat) (receiver : Receiver)
    (b : Ciphertext cc) (rescale : Bool) : Except Failure (Ciphertext cc) :=
  match receiver with
  | .operand => squareSelf keys calls b rescale
  | .other => mult keys calls b b rescale

def multMutableBothSelf (keys : String → Option (EvalKey cc)) (calls : Nat) (receiver : Receiver)
    (b : Ciphertext cc) (rescale : Bool) : Except Failure (Ciphertext cc) :=
  match receiver with
  | .operand => squareSelf keys calls b rescale
  | .other => Prod.fst <$> multMutable keys calls b b rescale

/-- The operands are an object and its copy, which have one level. -/
def multBoth (keys : String → Option (EvalKey cc)) (calls : Nat) (receiver : Receiver)
    (b c : Ciphertext cc) (rescale : Bool) : Except Failure (Ciphertext cc) :=
  match receiver with
  | .operand => mult keys calls b c rescale
  | .other =>
      if b.getLevel ≤ c.getLevel then mult keys calls b c rescale else mult keys calls c b rescale

def multMutableBoth (keys : String → Option (EvalKey cc)) (calls : Nat) (receiver : Receiver)
    (b c : Ciphertext cc) (rescale : Bool) : Except Failure (Ciphertext cc) :=
  match receiver with
  | .operand => Prod.fst <$> multMutable keys calls b c rescale
  | .other =>
      if b.getLevel ≤ c.getLevel then Prod.fst <$> multMutable keys calls b c rescale
      else Prod.fst <$> multMutable keys calls c b rescale

/-- With enough calls both computations return the same values. -/
def SameResult (left right : Nat → Bool → Except Failure (Ciphertext cc)) : Prop :=
  ∃ enough, ∀ calls, enough ≤ calls → ∀ rescale, SameValue (left calls rescale) (right calls rescale)

variable {self x y result : Ciphertext cc} {keys : String → Option (EvalKey cc)}
variable {scaleDegree level : Int}

omit [Mul F] [One F] in
/-- A rescale drops a level wherever the ciphertext stands. -/
theorem rescaleInternal_level_lt (self : Ciphertext cc) :
    self.rescaleInternal.getLevel < self.getLevel := by
  change RNSPoly.rescaledLevel cc self.getLevel < self.getLevel
  unfold RNSPoly.rescaledLevel
  split_ifs <;> omega

/-- A form of the operand stands at or below the given level. -/
structure Below (operand : Ciphertext cc) (upper : Int) (moved : Ciphertext cc) : Prop where
  level : moved.getLevel ≤ upper
  keyID : moved.keyID = operand.keyID

namespace Below

variable {moved : Ciphertext cc} {upper lower : Int}

omit [Mul F] [Div F] [One F] in
theorem start (self : Ciphertext cc) : Below self self.getLevel self := ⟨le_refl _, rfl⟩

omit [Mul F] [Div F] [One F] in
theorem weaken (past : Below self lower moved) (fewer : lower ≤ upper) : Below self upper moved :=
  ⟨past.level.trans fewer, past.keyID⟩

omit [Mul F] [Div F] [One F] in
theorem withNoiseFactor (past : Below self upper moved) (factor : F) :
    Below self upper (moved.withNoiseFactor factor) :=
  ⟨past.level, past.keyID⟩

omit [One F] in
theorem multScalarNoPrecheck (past : Below self upper moved) (c : F) :
    Below self upper (moved.multScalarNoPrecheck c false) :=
  ⟨past.level, past.keyID⟩

omit [Div F] [One F] in
theorem raiseDegreeToLevel (past : Below self upper moved) (targetLevel : Int) :
    Below self upper (moved.raiseDegreeToLevel targetLevel) :=
  ⟨past.level, past.keyID⟩

omit [Mul F] [One F] in
theorem rescaleInternal (past : Below self upper moved) :
    Below self (upper - 1) moved.rescaleInternal := by
  have dropped := rescaleInternal_level_lt moved
  have known := past.level
  exact ⟨by omega, past.keyID⟩

omit [Mul F] [Div F] [One F] in
theorem dropPolys (past : Below self upper moved) (lower : Int) :
    Below self (min upper lower) (moved.dropPolys lower) := by
  have known : moved.c0.level ≤ upper := past.level
  have dropped : (if moved.c0.level > lower then lower else moved.c0.level) ≤ min upper lower := by
    split_ifs <;> omega
  exact ⟨dropped, past.keyID⟩

omit [Mul F] [Div F] [One F] in
/-- A drop that stands behind a guard has the same effect when the guard covers it. -/
theorem dropWhen (past : Below self upper moved) {guard : Prop} [Decidable guard]
    (covers : lower < moved.getLevel → guard) :
    Below self (min upper lower) (if guard then moved.dropPolys lower else moved) := by
  by_cases above : guard
  · rw [if_pos above]
    exact past.dropPolys lower
  · have low : ¬lower < moved.getLevel := fun higher => above (covers higher)
    have known := past.level
    rw [if_neg above]
    exact ⟨by omega, past.keyID⟩

omit [Mul F] [Div F] [One F] in
theorem dropAboveNext (past : Below self upper moved) (lower : Int) :
    Below self (min upper (lower + 1))
      (if moved.getLevel - 1 > lower then moved.dropPolys (lower + 1) else moved) :=
  past.dropWhen (by omega)

end Below

/-- An adjustment either changes nothing or ends at or below both levels. -/
def Settles (self : Ciphertext cc) (level : Int) (outcome : Ciphertext cc × Bool) : Prop :=
  outcome = (self, false) ∨ outcome.2 = true ∧ Below self (min self.getLevel level) outcome.1

omit [Mul F] [Div F] [One F] in
theorem Below.settles (past : Below self (min self.getLevel level) x) :
    Settles self level (x, true) :=
  Or.inr ⟨rfl, past⟩

theorem multScalar_below {scaled : Ciphertext cc} (done : self.multScalar 1 false = .ok scaled) :
    Below self self.getLevel scaled := by
  have lower := rescaleInternal_level_lt self
  have first := Below.start self
  simp only [multScalar, bind_eq_ok] at done
  obtain ⟨_, -, same⟩ := done
  rw [← Except.ok.inj same]
  simp only [Bool.false_eq_true, false_and, decide_false]
  split_ifs
  · exact (first.rescaleInternal.weaken (by omega)).multScalarNoPrecheck 1
  · exact first.multScalarNoPrecheck 1

theorem adjustScaleAndLevel_fixedAuto_settles (technique : cc.rescaleTechnique = .fixedAuto)
    {scaling_factor : F} {outcome : Ciphertext cc × Bool}
    (done : self.adjustScaleAndLevel scaleDegree level scaling_factor = .ok outcome) :
    Settles self level outcome := by
  have first := Below.start self
  by_cases same : self.NoiseLevel = scaleDegree
  · by_cases higher : self.getLevel > level
    · simp [adjustScaleAndLevel, technique, same, higher] at done
      rw [← done]
      exact (first.dropPolys level).settles
    · by_cases lower : self.getLevel < level
      · simp [adjustScaleAndLevel, technique, same, higher, lower] at done
        exact Or.inl done.symm
      · simp [adjustScaleAndLevel, technique, same, higher, lower] at done
        rw [← done]
        exact (first.weaken (by omega)).settles
  · by_cases equal : self.getLevel = level
    · by_cases below : self.NoiseLevel < scaleDegree
      · simp [adjustScaleAndLevel, technique, same, equal, below] at done
        rw [← done]
        exact ((first.weaken (by omega)).raiseDegreeToLevel level).settles
      · simp [adjustScaleAndLevel, technique, same, equal, below] at done
        exact Or.inl done.symm
    · by_cases higher : self.getLevel > level
      · by_cases two : self.NoiseLevel = 2
        · have notSame : ¬2 = scaleDegree := two ▸ same
          simp only [adjustScaleAndLevel, technique, equal, higher, two, notSame, and_false,
            if_true, if_false] at done
          rw [← Except.ok.inj done]
          exact ((first.rescaleInternal.dropWhen id).weaken (by omega)).settles
        · simp only [adjustScaleAndLevel, technique, same, equal, higher, two, and_false, if_true,
            if_false] at done
          rw [← Except.ok.inj done]
          exact ((first.raiseDegreeToLevel level).dropWhen id).settles
      · simp [adjustScaleAndLevel, technique, same, equal, higher] at done
        exact Or.inl done.symm

theorem adjustScaleAndLevel_flexible_settles (technique : cc.rescaleTechnique.isFlexible)
    {scaling_factor : F} {outcome : Ciphertext cc × Bool}
    (done : self.adjustScaleAndLevel scaleDegree level scaling_factor = .ok outcome) :
    Settles self level outcome := by
  obtain ⟨notManual, notAuto⟩ := RescaleTechnique.not_fixed_of_flexible technique
  have first := Below.start self
  by_cases higher : self.getLevel > level
  · by_cases two : self.NoiseLevel = 2
    · by_cases targetTwo : scaleDegree = 2
      · simp only [adjustScaleAndLevel, notManual, notAuto, higher, two, targetTwo, or_self,
          false_and, if_true, if_false] at done
        rw [← Except.ok.inj done]
        have reduced := fun scale factor =>
          ((first.multScalarNoPrecheck scale).withNoiseFactor factor).rescaleInternal
        exact ((((reduced _ _).dropWhen id).weaken (by omega)).withNoiseFactor _).settles
      · by_cases next : self.getLevel - 1 = level
        · simp only [adjustScaleAndLevel, notManual, notAuto, higher, two, targetTwo, next, or_self,
            false_and, if_true, if_false] at done
          rw [← Except.ok.inj done]
          exact (first.rescaleInternal.weaken (by omega)).settles
        · simp only [adjustScaleAndLevel, notManual, notAuto, higher, two, targetTwo, next, or_self,
            false_and, if_true, if_false] at done
          rw [← Except.ok.inj done]
          have reduced := fun scale factor =>
            ((first.multScalarNoPrecheck scale).withNoiseFactor factor).rescaleInternal
          have final := fun scale factor last =>
            (((reduced scale factor).dropAboveNext level).withNoiseFactor last).rescaleInternal
          exact (((final _ _ _).weaken (by omega)).withNoiseFactor _).settles
    · by_cases targetTwo : scaleDegree = 2
      · simp only [adjustScaleAndLevel, notManual, notAuto, higher, two, targetTwo, or_self,
          false_and, if_true, if_false] at done
        rw [← Except.ok.inj done]
        exact (((first.multScalarNoPrecheck _).dropPolys level).withNoiseFactor _).settles
      · simp only [adjustScaleAndLevel, notManual, notAuto, higher, two, targetTwo, or_self,
          false_and, if_true, if_false] at done
        rw [← Except.ok.inj done]
        have lowered := fun scale => (first.multScalarNoPrecheck scale).dropAboveNext level
        have final := fun scale last => ((lowered scale).withNoiseFactor last).rescaleInternal
        exact (((final _ _).weaken (by omega)).withNoiseFactor _).settles
  · by_cases lower : self.getLevel < level
    · simp only [adjustScaleAndLevel, notManual, notAuto, higher, lower, or_self, false_and,
        if_true, if_false] at done
      exact Or.inl (Except.ok.inj done).symm
    · by_cases below : self.NoiseLevel < scaleDegree
      · simp only [adjustScaleAndLevel, notManual, notAuto, higher, lower, below, or_self,
          false_and, if_true, if_false, bind_eq_ok] at done
        obtain ⟨scaled, computed, same⟩ := done
        rw [← Except.ok.inj same]
        exact ((multScalar_below computed).weaken (by omega)).settles
      · by_cases above : scaleDegree < self.NoiseLevel
        · simp only [adjustScaleAndLevel, notManual, notAuto, higher, lower, below, above, or_self,
            false_and, if_true, if_false] at done
          exact Or.inl (Except.ok.inj done).symm
        · simp only [adjustScaleAndLevel, notManual, notAuto, higher, lower, below, above, or_self,
            false_and, if_false] at done
          rw [← Except.ok.inj done]
          exact (first.weaken (by omega)).settles

theorem adjustForAddOrSub_settles (automatic : cc.rescaleTechnique.isAutomatic)
    {outcome : Ciphertext cc × Bool} (done : x.adjustForAddOrSub y = .ok outcome) :
    Settles x y.getLevel outcome := by
  rw [adjustForAddOrSub_eq automatic] at done
  rcases RescaleTechnique.isAutomatic_iff.mp automatic with fixed | flexible
  · exact adjustScaleAndLevel_fixedAuto_settles fixed done
  · exact adjustScaleAndLevel_flexible_settles flexible done

omit [Div F] [One F] in
theorem multMetadata_kept {a b : Ciphertext cc} (done : self.multMetadata a b = .ok result) :
    result.getLevel = self.getLevel := by
  by_cases flexible : cc.rescaleTechnique.isFlexible
  · simp only [multMetadata, flexible, if_true, bind_eq_ok] at done
    obtain ⟨_, -, _, -, _, -, same⟩ := done
    rw [← Except.ok.inj same]
    rfl
  · simp only [multMetadata, flexible, Bool.false_eq_true, if_false, bind_eq_ok] at done
    obtain ⟨_, -, _, -, same⟩ := done
    rw [← Except.ok.inj same]
    rfl

omit [One F] in
/-- A product needs the key of its first factor and stands at or below both factors. -/
theorem multAligned_below {rescale : Bool} (low : x.getLevel ≤ level)
    (done : multAligned keys x y rescale = .ok result) :
    keys x.keyID ≠ none ∧ result.getLevel ≤ level := by
  rw [multAligned] at done
  generalize start_eq : (if (cc.rescaleTechnique = .fixedManual ∨ cc.rescaleTechnique = .fixedAuto) ∧
    x.getLevel > y.getLevel then x.dropPolys y.getLevel else x) = start at done
  have kept : Below x x.getLevel start := by
    rw [← start_eq]
    split_ifs
    · exact ((Below.start x).dropPolys y.getLevel).weaken (by omega)
    · exact Below.start x
  have lower := kept.level
  rw [← kept.keyID]
  simp only [bind_eq_ok] at done
  obtain ⟨_, -, _, -, done⟩ := done
  cases found : keys start.keyID with
  | none => simp [found] at done
  | some kskEval =>
      simp only [found, bind_eq_ok] at done
      obtain ⟨_, -, _, -, product, metadata, same⟩ := done
      have product_level : product.getLevel = (start.relinearize kskEval y).getLevel :=
        multMetadata_kept metadata
      change product.getLevel = start.getLevel at product_level
      have reduced := rescaleInternal_level_lt product
      rw [← Except.ok.inj same]
      refine ⟨by simp, ?_⟩
      split_ifs <;> omega

/-- The adjustments of a product leave the operand it goes on with at or below the second one. -/
theorem alignForMult_below (automatic : cc.rescaleTechnique.isAutomatic) {aligned : Ciphertext cc}
    {owned : Option (Ciphertext cc)} (done : x.alignForMult y = .ok (aligned, owned)) :
    aligned.keyID = x.keyID ∧
      (owned = none ∧ aligned.getLevel ≤ y.getLevel ∨
        ∃ b_owned, owned = some b_owned ∧ Below y y.getLevel b_owned) := by
  obtain ⟨⟨adjusted, ok⟩, first, rest⟩ := bind_eq_ok.mp done
  have settled := adjustForAddOrSub_settles automatic first
  have start := Below.start y
  cases ok with
  | true =>
      obtain ⟨-, lower⟩ := settled.resolve_left (by simp)
      have level : adjusted.getLevel ≤ min x.getLevel y.getLevel := lower.level
      have keyID : adjusted.keyID = x.keyID := lower.keyID
      by_cases two : adjusted.NoiseLevel = 2
      · simp only [if_true, pure_bind, two] at rest
        obtain ⟨first_eq, second_eq⟩ := Prod.mk.inj (Except.ok.inj rest)
        rw [← first_eq, ← second_eq]
        exact ⟨keyID, Or.inr ⟨_, rfl, start.rescaleInternal.weaken (by omega)⟩⟩
      · simp only [if_true, if_false, pure_bind, two] at rest
        obtain ⟨first_eq, second_eq⟩ := Prod.mk.inj (Except.ok.inj rest)
        rw [← first_eq, ← second_eq]
        exact ⟨keyID, Or.inl ⟨rfl, by omega⟩⟩
  | false =>
      have kept : adjusted = x := by
        rcases settled with same | ⟨impossible, -⟩
        · exact (Prod.mk.inj same).1
        · simp at impossible
      subst kept
      simp only [Bool.false_eq_true, if_false] at rest
      obtain ⟨⟨b_owned, adjustedToo⟩, second, last⟩ := bind_eq_ok.mp rest
      have settledToo := adjustForAddOrSub_settles automatic second
      cases adjustedToo with
      | false => simp at last
      | true =>
          obtain ⟨-, lower⟩ := settledToo.resolve_left (by simp)
          have moved : Below y y.getLevel b_owned := lower.weaken (by omega)
          by_cases two : adjusted.NoiseLevel = 2
          · simp only [if_true, pure_bind, two] at last
            obtain ⟨first_eq, second_eq⟩ := Prod.mk.inj (Except.ok.inj last)
            rw [← first_eq, ← second_eq]
            exact ⟨rfl, Or.inr ⟨_, rfl, moved.rescaleInternal.weaken (by omega)⟩⟩
          · simp only [if_true, if_false, pure_bind, two] at last
            obtain ⟨first_eq, second_eq⟩ := Prod.mk.inj (Except.ok.inj last)
            rw [← first_eq, ← second_eq]
            exact ⟨rfl, Or.inr ⟨_, rfl, moved⟩⟩

/-- Under an automatic technique a product stands at or below its second factor. -/
theorem mult_below (automatic : cc.rescaleTechnique.isAutomatic) {calls : Nat} {rescale : Bool}
    (sameKey : x.keyID = y.keyID) (done : mult keys calls x y rescale = .ok result) :
    keys y.keyID ≠ none ∧ result.getLevel ≤ y.getLevel := by
  induction calls generalizing x y with
  | zero => simp [mult] at done
  | succ calls ih =>
      simp only [mult, automatic, if_true, bind_eq_ok] at done
      obtain ⟨_, -, ⟨aligned, owned⟩, prepared, rest⟩ := done
      obtain ⟨keyID, operand⟩ := alignForMult_below automatic prepared
      rw [adoptKey_same sameKey] at keyID
      have tagged : aligned.keyID = y.keyID := keyID.trans sameKey
      rcases operand with ⟨rfl, low⟩ | ⟨b_owned, rfl, lower⟩
      · have finished := multAligned_below low rest
        rw [tagged] at finished
        exact finished
      · have finished := ih (tagged.trans lower.keyID.symm) rest
        rw [lower.keyID] at finished
        exact ⟨finished.1, finished.2.trans lower.level⟩

omit [One F] in
/-- Two factors of one level that need no further rescale leave their level unchanged. -/
theorem multAligned_level (level : x.getLevel = y.getLevel)
    (done : multAligned keys x y false = .ok result) : result.getLevel = x.getLevel := by
  have low : ¬x.getLevel > y.getLevel := not_lt.mpr level.le
  simp only [multAligned, low, and_false, if_false, bind_eq_ok] at done
  obtain ⟨_, -, _, -, done⟩ := done
  cases found : keys x.keyID with
  | none => simp [found] at done
  | some kskEval =>
      simp only [found, bind_eq_ok] at done
      obtain ⟨_, -, _, -, product, metadata, same⟩ := done
      have kept := multMetadata_kept metadata
      simp only [Bool.false_eq_true, false_and, if_false] at same
      rw [← Except.ok.inj same, kept]
      rfl

/-- The product of an object and its copy multiplies two objects of reduced degree. -/
theorem mult_copy (keys : String → Option (EvalKey cc)) (automatic : cc.rescaleTechnique.isAutomatic)
    (two : self.NoiseLevel = 2) (calls : Nat) (rescale : Bool) :
    mult keys (calls + 2) self self rescale =
      multAligned keys self.rescaleInternal self.rescaleInternal rescale := by
  have product := mult_eq_multAligned automatic keys (check_ok rfl)
    (aligned_self automatic) (Or.inr two) calls rescale
  rw [product, reduceDegree, if_pos two]

omit [Mul F] [One F] in
theorem rescaleInternal_single (two : self.NoiseLevel = 2) : self.rescaleInternal.NoiseLevel = 1 := by
  change self.NoiseLevel - 1 = 1
  omega

/-- The mutable product of an object and its copy rescales each of them once. -/
theorem multMutable_copy (keys : String → Option (EvalKey cc)) (self : Ciphertext cc) (calls : Nat)
    (rescale : Bool) :
    Prod.fst <$> multMutable keys (calls + 2) self self rescale =
      mult keys (calls + 2) self self rescale := by
  by_cases automatic : cc.rescaleTechnique.isAutomatic
  · have same : self.adjustForAddOrSub self = .ok (self, true) :=
      adjustForAddOrSub_same automatic rfl rfl
    by_cases two : self.NoiseLevel = 2
    · have one := rescaleInternal_single two
      have both : self.alignForMult self = .ok (self.rescaleInternal, some self.rescaleInternal) := by
        simp [alignForMult, same, two]
        rfl
      have finished := mult_of_ready automatic keys (check_ok rfl) (adoptKey_same rfl) rfl
        one one calls rescale
      rw [mult_copy keys automatic two, multMutable]
      simp [check_ok, adoptKey_same, automatic, both, one, finished]
    · have checked := multAligned_checks keys (Or.inl (le_refl self.getLevel)) rescale
      have both : self.alignForMult self = .ok (self, none) := by
        simp [alignForMult, same, two]
        rfl
      rw [mult_self keys (fun _ => two), ← checked, multMutable]
      simp [check_ok, adoptKey_same, automatic, both, mult_self keys (fun _ => two)]
  · have checked := multAligned_checks keys (Or.inl (le_refl self.getLevel)) rescale
    have single : cc.rescaleTechnique.isAutomatic → self.NoiseLevel ≠ 2 :=
      fun holds => absurd holds automatic
    rw [mult_self keys single, ← checked, multMutable]
    simp [check_ok, adoptKey_same, automatic, mult_self keys single]

/-- A square rescales its one object before the product reads it twice. -/
theorem squareSelf_value (keys : String → Option (EvalKey cc)) (self : Ciphertext cc) (calls : Nat)
    (rescale : Bool) :
    SameValue (squareSelf keys (calls + 2) self rescale) (mult keys (calls + 2) self self rescale) := by
  by_cases twice : cc.rescaleTechnique.isAutomatic ∧ self.NoiseLevel = 2
  · have one := rescaleInternal_single twice.2
    have product := @multSelf_eq_multAligned _ _ _ _ _ self.rescaleInternal keys
      (fun _ => by omega) (calls + 1) rescale
    apply SameValue.of_eq
    rw [squareSelf, if_pos twice, mult_copy keys twice.1 twice.2, product]
    simp [check_ok one]
  · have single : cc.rescaleTechnique.isAutomatic → self.NoiseLevel ≠ 2 :=
      fun automatic two => twice ⟨automatic, two⟩
    rw [squareSelf, if_neg twice, mult_self keys single, multSelf_eq_multAligned keys single]
    cases one : cc.check (self.NoiseLevel = 1) "this->NoiseLevel == 1" with
    | ok _ => exact SameValue.of_eq (by simp)
    | error failure =>
        have failed : cc.asserts = true ∧ ¬self.NoiseLevel = 1 := by
          by_contra holds
          rw [ContextData.check, if_neg holds] at one
          cases one
        intro value
        simp [multAligned, ContextData.check, failed]

/-- The aliased product never returns what the product with a copy returns. -/
theorem multSelf_differs (automatic : cc.rescaleTechnique.isAutomatic) (two : self.NoiseLevel = 2)
    {calls : Nat} {rescale : Bool} (done : multSelf keys (calls + 1) self rescale = .ok result) :
    keys self.keyID ≠ none ∧ result.getLevel < self.rescaleInternal.getLevel := by
  have same : self.adjustForAddOrSub self = .ok (self, true) :=
    adjustForAddOrSub_same automatic rfl rfl
  have lower := rescaleInternal_level_lt self.rescaleInternal
  have start : mult keys calls self.rescaleInternal self.rescaleInternal.rescaleInternal rescale =
      .ok result := by
    simpa [multSelf, check_ok, adoptKey_same, automatic, same, two] using done
  have tagged : self.rescaleInternal.keyID = self.rescaleInternal.rescaleInternal.keyID := rfl
  have finished := mult_below automatic tagged start
  exact ⟨finished.1, by omega⟩

theorem multMutableSelf_differs (automatic : cc.rescaleTechnique.isAutomatic) (two : self.NoiseLevel = 2)
    {calls : Nat} {rescale : Bool}
    (done : multMutableSelf keys (calls + 2) self rescale = .ok result) :
    keys self.keyID ≠ none ∧ result.getLevel < self.rescaleInternal.getLevel := by
  have same : self.adjustForAddOrSub self = .ok (self, true) :=
    adjustForAddOrSub_same automatic rfl rfl
  have lower := rescaleInternal_level_lt self.rescaleInternal
  have zero : self.rescaleInternal.rescaleInternal.NoiseLevel = 0 := by
    change self.NoiseLevel - 1 - 1 = 0
    omega
  have product := @multSelf_eq_multAligned _ _ _ _ _ self.rescaleInternal.rescaleInternal keys
    (fun _ => by omega) calls rescale
  rw [multMutableSelf] at done
  simp only [adoptKey_same, automatic, same, if_true, ok_bind, bind_eq_ok] at done
  obtain ⟨_, -, aligned, kept, reached, reduced, _, -, _, -, done⟩ := done
  have start : self = aligned := Except.ok.inj kept
  rw [← start, if_pos two] at reduced
  have twice : self.rescaleInternal.rescaleInternal = reached := Except.ok.inj reduced
  rw [← twice, product] at done
  have finished := multAligned_below (le_refl _) done
  exact ⟨finished.1, by omega⟩

/-- A computation that never returns the product with a copy agrees with it only without a key. -/
theorem sameResult_iff_of_differs (automatic : cc.rescaleTechnique.isAutomatic)
    (two : self.NoiseLevel = 2) {left : Nat → Bool → Except Failure (Ciphertext cc)}
    (differs : ∀ calls rescale result, 2 ≤ calls → left calls rescale = .ok result →
      keys self.keyID ≠ none ∧ result.getLevel < self.rescaleInternal.getLevel) :
    SameResult left (fun calls rescale => mult keys calls self self rescale) ↔
      keys self.keyID = none := by
  have one := rescaleInternal_single two
  constructor
  · rintro ⟨enough, same⟩
    have product := mult_copy keys automatic two enough false
    have agreed := same (enough + 2) (by omega) false
    rcases multAligned_returns keys rfl rfl one one false with ⟨missing, -⟩ | ⟨result, done⟩
    · exact missing
    · have level := multAligned_level rfl done
      have lower := (differs _ _ _ (by omega) ((agreed result).mpr (product.trans done))).2
      omega
  · intro missing
    refine ⟨2, fun calls enough rescale value => ⟨?_, ?_⟩⟩
    · intro done
      exact absurd missing (differs calls rescale value enough done).1
    · intro done
      exact absurd missing (mult_below automatic rfl done).1

/-- A form of the square agrees with the product of copies unless it reduces the operand twice. -/
theorem sameResult_square_iff {form : Nat → Bool → Except Failure (Ciphertext cc)}
    (differs : cc.rescaleTechnique.isAutomatic → self.NoiseLevel = 2 →
      ∀ calls rescale result, 2 ≤ calls → form calls rescale = .ok result →
        keys self.keyID ≠ none ∧ result.getLevel < self.rescaleInternal.getLevel)
    (agrees : (cc.rescaleTechnique.isAutomatic → self.NoiseLevel ≠ 2) →
      ∀ calls rescale, 2 ≤ calls → form calls rescale = mult keys calls self self rescale) :
    SameResult form (fun calls rescale => mult keys calls self self rescale) ↔
      (cc.rescaleTechnique.isAutomatic → self.NoiseLevel = 2 → keys self.keyID = none) := by
  by_cases twice : cc.rescaleTechnique.isAutomatic ∧ self.NoiseLevel = 2
  · obtain ⟨automatic, two⟩ := twice
    rw [sameResult_iff_of_differs automatic two (differs automatic two)]
    exact ⟨fun missing _ _ => missing, fun missing => missing automatic two⟩
  · have single : cc.rescaleTechnique.isAutomatic → self.NoiseLevel ≠ 2 :=
      fun automatic two => twice ⟨automatic, two⟩
    refine ⟨fun _ automatic two => absurd two (single automatic), fun _ => ⟨2, ?_⟩⟩
    intro calls enough rescale
    exact SameValue.of_eq (agrees single calls rescale enough)

theorem multSelf_sameResult_iff (keys : String → Option (EvalKey cc)) (self : Ciphertext cc) :
    SameResult (fun calls rescale => multSelf keys calls self rescale)
        (fun calls rescale => mult keys calls self self rescale) ↔
      (cc.rescaleTechnique.isAutomatic → self.NoiseLevel = 2 → keys self.keyID = none) := by
  apply sameResult_square_iff
  · intro automatic two calls rescale result enough done
    obtain ⟨calls, rfl⟩ := Nat.exists_eq_add_of_le' enough
    exact multSelf_differs automatic two done
  · intro single calls rescale enough
    obtain ⟨calls, rfl⟩ := Nat.exists_eq_add_of_le' enough
    rw [mult_self keys single, multSelf_eq_multAligned keys single]

theorem multMutableSelf_sameResult_iff (keys : String → Option (EvalKey cc))
    (self : Ciphertext cc) :
    SameResult (fun calls rescale => multMutableSelf keys calls self rescale)
        (fun calls rescale => mult keys calls self self rescale) ↔
      (cc.rescaleTechnique.isAutomatic → self.NoiseLevel = 2 → keys self.keyID = none) := by
  apply sameResult_square_iff
  · intro automatic two calls rescale result enough done
    obtain ⟨calls, rfl⟩ := Nat.exists_eq_add_of_le' enough
    exact multMutableSelf_differs automatic two done
  · intro single calls rescale enough
    exact multMutableSelf_eq_mult keys single enough rescale

omit [Mul F] [Div F] [One F] in
theorem SameResult.congr_right {left right other : Nat → Bool → Except Failure (Ciphertext cc)}
    (equal : ∀ calls rescale, right (calls + 2) rescale = other (calls + 2) rescale) :
    SameResult left right ↔ SameResult left other := by
  constructor
  · rintro ⟨enough, same⟩
    refine ⟨enough + 2, fun calls more rescale => ?_⟩
    obtain ⟨calls, rfl⟩ := Nat.exists_eq_add_of_le' (show 2 ≤ calls by omega)
    rw [← equal]
    exact same _ (by omega) rescale
  · rintro ⟨enough, same⟩
    refine ⟨enough + 2, fun calls more rescale => ?_⟩
    obtain ⟨calls, rfl⟩ := Nat.exists_eq_add_of_le' (show 2 ≤ calls by omega)
    rw [equal]
    exact same _ (by omega) rescale

/-- Each product of an object with itself returns what the product with its copy returns. -/
structure AliasContract (keys : String → Option (EvalKey cc)) (a : Ciphertext cc) : Prop where
  inPlace : SameResult (fun calls rescale => multSelf keys calls a rescale)
    (fun calls rescale => mult keys calls a a rescale)
  inPlaceMutable : SameResult (fun calls rescale => multMutableSelf keys calls a rescale)
    (fun calls rescale => Prod.fst <$> multMutable keys calls a a rescale)
  outOfPlace : ∀ receiver,
    SameResult (fun calls rescale => multBothSelf keys calls receiver a rescale)
      (fun calls rescale => multBoth keys calls receiver a a rescale)
  outOfPlaceMutable : ∀ receiver,
    SameResult (fun calls rescale => multMutableBothSelf keys calls receiver a rescale)
      (fun calls rescale => multMutableBoth keys calls receiver a a rescale)

/-- The products with two operands never alias a receiver that was rescaled before. -/
theorem multBothSelf_sameResult (keys : String → Option (EvalKey cc)) (receiver : Receiver)
    (a : Ciphertext cc) :
    SameResult (fun calls rescale => multBothSelf keys calls receiver a rescale)
        (fun calls rescale => multBoth keys calls receiver a a rescale) ∧
      SameResult (fun calls rescale => multMutableBothSelf keys calls receiver a rescale)
        (fun calls rescale => multMutableBoth keys calls receiver a a rescale) := by
  have squared : SameResult (fun calls rescale => squareSelf keys calls a rescale)
      (fun calls rescale => mult keys calls a a rescale) := by
    refine ⟨2, fun calls enough rescale => ?_⟩
    obtain ⟨calls, rfl⟩ := Nat.exists_eq_add_of_le' enough
    exact squareSelf_value keys a calls rescale
  cases receiver with
  | operand => exact ⟨squared, (SameResult.congr_right (multMutable_copy keys a)).mpr squared⟩
  | other =>
      refine ⟨⟨0, fun calls _ rescale => ?_⟩, ⟨0, fun calls _ rescale => ?_⟩⟩
      · exact SameValue.of_eq (if_pos (le_refl _)).symm
      · exact SameValue.of_eq (if_pos (le_refl _)).symm

/-- The aliased products go wrong exactly where they rescale their object on the way in. -/
theorem alias_contract_iff (keys : String → Option (EvalKey cc)) (a : Ciphertext cc) :
    AliasContract keys a ↔
      (cc.rescaleTechnique.isAutomatic → a.NoiseLevel = 2 → keys a.keyID = none) := by
  constructor
  · intro contract
    exact (multSelf_sameResult_iff keys a).mp contract.inPlace
  · intro harmless
    have mutable := (multMutableSelf_sameResult_iff keys a).mpr harmless
    exact ⟨(multSelf_sameResult_iff keys a).mpr harmless,
      (SameResult.congr_right (multMutable_copy keys a)).mpr mutable,
      fun receiver => (multBothSelf_sameResult keys receiver a).1,
      fun receiver => (multBothSelf_sameResult keys receiver a).2⟩

/-- This key switches every polynomial to itself. -/
def plainKey (cc : ContextData F) : EvalKey cc where
  keySwitchCore := fun poly => (poly, poly)
  level_fst := fun _ => rfl
  level_snd := fun _ => rfl

/-- A release build returns a product of a lower level and of degree one. -/
theorem aliased_square_too_low :
    let a := zeroAt (smallContext .flexibleAuto false) 3 2
    (multSelf (fun _ => some (plainKey _)) 8 a false).map (fun r => (r.getLevel, r.NoiseLevel)) =
        .ok (1, 1) ∧
      (mult (fun _ => some (plainKey _)) 8 a a false).map (fun r => (r.getLevel, r.NoiseLevel)) =
        .ok (2, 2) ∧
      ¬AliasContract (fun _ => some (plainKey _)) a := by
  refine ⟨by rfl, by rfl, ?_⟩
  intro contract
  have missing := (multSelf_sameResult_iff _ _).mp contract.inPlace rfl rfl
  cases missing

end Ciphertext
end Fideslib.CKKS
