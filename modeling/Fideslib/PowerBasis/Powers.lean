/-
This file proves that the precomputed powers are the powers of the input.
-/

import Fideslib.PowerBasis.PatersonStockmeyer

namespace Fideslib.PowerBasis

open ChebyshevSeries (coefficient)

theorem isPowerOfTwo_iff {i : Nat} (positive : 1 ≤ i) :
    isPowerOfTwo i = true ↔ ∃ exponent, i = 2 ^ exponent := by
  rw [isPowerOfTwo, decide_eq_true_eq, Nat.and_sub_one_eq_zero_iff_isPowerOfTwo (by omega)]
  rfl

theorem positive_of_composite {i : Nat} (composite : isPowerOfTwo i = false) : 1 ≤ i := by
  by_contra zero
  rw [show i = 0 by omega] at composite
  exact absurd composite (by decide)

/-- A composite index is its highest bit and the positive rest. -/
theorem composite_split {i : Nat} (composite : isPowerOfTwo i = false) :
    i = 2 ^ (msbOf i - 1) + withoutMsb i ∧ 1 ≤ withoutMsb i := by
  have positive := positive_of_composite composite
  have low : 2 ^ Nat.log2 i ≤ i := Nat.log2_self_le (by omega)
  have high : i < 2 ^ (Nat.log2 i + 1) := Nat.lt_log2_self
  rw [pow_succ] at high
  have rest : withoutMsb i = i - 2 ^ Nat.log2 i := by
    rw [withoutMsb, msbOf, Nat.add_sub_cancel, Nat.and_two_pow_sub_one_eq_mod,
      Nat.mod_eq_sub_mod low, Nat.mod_eq_of_lt (by omega)]
  rw [msbOf, Nat.add_sub_cancel, rest]
  constructor
  · omega
  · by_contra zero
    have power : isPowerOfTwo i = true := (isPowerOfTwo_iff positive).mpr ⟨Nat.log2 i, by omega⟩
    rw [power] at composite
    exact Bool.noConfusion composite

/-- A marked composite index has the rest of its bits available. -/
def Closed (marks : Nat → Bool) : Prop :=
  ∀ j, isPowerOfTwo j = false → marks (j - 1) = true →
    isPowerOfTwo (withoutMsb j) = true ∨ marks (withoutMsb j - 1) = true

theorem markIndices_mono (marks : Nat → Bool) (rem : Nat) {index : Nat}
    (marked : marks index = true) : markIndices marks rem index = true := by
  induction marks, rem using markIndices.induct with
  | case1 marks rem composite ih =>
      rw [markIndices, dif_pos composite]
      apply ih
      rw [Function.update_apply, marked, ite_self]
  | case2 marks rem power =>
      rw [markIndices, dif_neg power]
      exact marked

theorem markIndices_self {marks : Nat → Bool} {rem : Nat}
    (composite : isPowerOfTwo rem = false) : markIndices marks rem (rem - 1) = true := by
  rw [markIndices, dif_pos composite]
  exact markIndices_mono _ _ (Function.update_self _ _ _)

/-- The only index that may lack its rest is the one that is marked next. -/
theorem markIndices_closed (marks : Nat → Bool) (rem : Nat)
    (almost : ∀ j, isPowerOfTwo j = false → marks (j - 1) = true →
      isPowerOfTwo (withoutMsb j) = true ∨ marks (withoutMsb j - 1) = true ∨ withoutMsb j = rem) :
    Closed (markIndices marks rem) := by
  induction marks, rem using markIndices.induct with
  | case1 marks rem composite ih =>
      rw [markIndices, dif_pos composite]
      apply ih
      intro j composed marked
      have bound := positive_of_composite composed
      have remBound := positive_of_composite composite
      by_cases same : j - 1 = rem - 1
      · have equal : j = rem := by omega
        right
        right
        rw [equal]
      · rw [Function.update_of_ne same] at marked
        rcases almost j composed marked with power | rest | next
        · left
          exact power
        · right
          left
          rw [Function.update_apply, rest, ite_self]
        · right
          left
          rw [next, Function.update_self]
  | case2 marks rem power =>
      rw [markIndices, dif_neg power]
      intro j composed marked
      rcases almost j composed marked with power' | rest | next
      · left
        exact power'
      · right
        exact rest
      · left
        rw [next]
        exact Bool.of_not_eq_false power

section

variable {K : Type} [Field K] [DecidableEq K]

theorem neededIndices_mono (coefficients : List K) (i : Nat) {marks : Nat → Bool} {index : Nat}
    (marked : marks index = true) : neededIndices coefficients i marks index = true := by
  induction i generalizing marks with
  | zero => exact marked
  | succ i ih =>
      rw [neededIndices]
      apply ih
      by_cases power : isPowerOfTwo (i + 1) = true
      · rw [if_pos power, Function.update_apply, marked, ite_self]
      · rw [if_neg power]
        by_cases nonzero : coefficients.getD (i + 1) 0 ≠ 0
        · rw [if_pos nonzero]
          exact markIndices_mono _ _ marked
        · rw [if_neg nonzero]
          exact marked

/-- The marks stay closed while the indices are visited. -/
theorem neededIndices_closed (coefficients : List K) (i : Nat) {marks : Nat → Bool}
    (closed : Closed marks) : Closed (neededIndices coefficients i marks) := by
  induction i generalizing marks with
  | zero => exact closed
  | succ i ih =>
      rw [neededIndices]
      apply ih
      by_cases power : isPowerOfTwo (i + 1) = true
      · rw [if_pos power]
        intro j composite marked
        have bound := positive_of_composite composite
        have other : j - 1 ≠ i := by
          intro same
          rw [show j = i + 1 by omega, power] at composite
          exact Bool.noConfusion composite
        rw [Function.update_of_ne other] at marked
        rcases closed j composite marked with left | right
        · exact Or.inl left
        · right
          rw [Function.update_apply, right, ite_self]
      · rw [if_neg power]
        by_cases nonzero : coefficients.getD (i + 1) 0 ≠ 0
        · rw [if_pos nonzero]
          apply markIndices_closed
          intro j composite marked
          rcases closed j composite marked with left | right
          · exact Or.inl left
          · exact Or.inr (Or.inl right)
        · rw [if_neg nonzero]
          exact closed

/-- A composite index with a nonzero coefficient is needed. -/
theorem neededIndices_marks (coefficients : List K) (i : Nat) (marks : Nat → Bool) {index : Nat}
    (composite : isPowerOfTwo index = false) (below : index ≤ i)
    (nonzero : coefficients.getD index 0 ≠ 0) :
    neededIndices coefficients i marks (index - 1) = true := by
  induction i generalizing marks with
  | zero =>
      have := positive_of_composite composite
      omega
  | succ i ih =>
      rw [neededIndices]
      by_cases here : index = i + 1
      · apply neededIndices_mono
        rw [← here, if_neg (by rw [composite]; decide), if_pos nonzero]
        exact markIndices_self composite
      · exact ih _ (by omega)

/-- The available entries hold the powers of the input. -/
structure HoldsPowers (x : K) (k : Nat) (available : Nat → Prop) (powers : List (Option K)) :
    Prop where
  length : powers.length = k
  read : ∀ index, 1 ≤ index → available index → readPower powers (index - 1) = some (x ^ index)

omit [DecidableEq K] in
theorem firstPowers_holds (x : K) {k : Nat} (positive : 1 ≤ k) :
    ∃ powers, firstPowers x k = some powers ∧ HoldsPowers x k (fun index => index = 1) powers := by
  refine ⟨_, if_pos positive, ?_, ?_⟩
  · rw [List.length_set, List.length_replicate]
  · intro index _ first
    rw [first, readPower, List.getElem?_set, if_pos rfl,
      if_pos (by rw [List.length_replicate]; omega)]
    simp

omit [DecidableEq K] in
theorem HoldsPowers.set {x : K} {k : Nat} {available : Nat → Prop} {powers : List (Option K)}
    (holds : HoldsPowers x k available powers) {i : Nat} (positive : 1 ≤ i) (inside : i ≤ k)
    {next : Nat → Prop} (step : ∀ index, next index → index ≠ i → available index)
    {power : K} (value : power = x ^ i) :
    HoldsPowers x k next (powers.set (i - 1) (some power)) := by
  constructor
  · rw [List.length_set]
    exact holds.length
  · intro index first following
    rw [readPower, List.getElem?_set]
    by_cases same : i - 1 = index - 1
    · rw [if_pos same, if_pos (by rw [holds.length]; omega), value, show i = index by omega]
      rfl
    · rw [if_neg same]
      exact holds.read index first (step index following (by omega))

omit [DecidableEq K] in
/-- The loop of the linear path computes each power that is marked. -/
theorem linearPowers_holds {indices : Nat → Bool} (closed : Closed indices) (x : K) {k : Nat}
    (positive : 1 ≤ k) (n : Nat) (started : 1 ≤ n) (inside : n ≤ k) :
    ∃ powers, linearPowers indices x k n = some powers ∧
      HoldsPowers x k (fun index => index ≤ n ∧
        (isPowerOfTwo index = true ∨ indices (index - 1) = true)) powers := by
  induction n using Nat.twoStepInduction with
  | zero => omega
  | one =>
      obtain ⟨powers, first, holds⟩ := firstPowers_holds x positive
      refine ⟨powers, first, holds.length, ?_⟩
      intro index atLeast available
      exact holds.read index atLeast (by omega)
  | more n _ ih =>
      obtain ⟨powers, built, holds⟩ := ih (by omega) (by omega)
      rw [linearPowers, built]
      simp only [Option.bind_eq_bind, Option.bind_some]
      have earlier : ∀ index, (index ≤ n + 2 ∧
          (isPowerOfTwo index = true ∨ indices (index - 1) = true)) → index ≠ n + 2 →
          index ≤ n + 1 ∧ (isPowerOfTwo index = true ∨ indices (index - 1) = true) :=
        fun index available other => ⟨by omega, available.2⟩
      by_cases power : isPowerOfTwo (n + 2) = true
      · obtain ⟨exponent, value⟩ := (isPowerOfTwo_iff (by omega)).mp power
        obtain ⟨smaller, isSucc⟩ : ∃ smaller, exponent = smaller + 1 := by
          cases exponent with
          | zero => omega
          | succ smaller => exact ⟨smaller, rfl⟩
        rw [isSucc, pow_succ] at value
        have half : (n + 2) / 2 = 2 ^ smaller := by omega
        have one := Nat.one_le_two_pow (n := smaller)
        have base := holds.read (2 ^ smaller) one
          ⟨by omega, Or.inl ((isPowerOfTwo_iff one).mpr ⟨smaller, rfl⟩)⟩
        rw [if_pos power, half, base]
        refine ⟨_, rfl, holds.set (by omega) inside earlier ?_⟩
        rw [value, ← pow_add]
        congr 1
        omega
      · rw [if_neg power]
        by_cases marked : indices (n + 2 - 1) = true
        · have composite : isPowerOfTwo (n + 2) = false := Bool.of_not_eq_true power
          obtain ⟨split, restPositive⟩ := composite_split composite
          have topPositive := Nat.one_le_two_pow (n := msbOf (n + 2) - 1)
          have high := holds.read (2 ^ (msbOf (n + 2) - 1)) topPositive
            ⟨by omega, Or.inl ((isPowerOfTwo_iff topPositive).mpr ⟨_, rfl⟩)⟩
          have low := holds.read (withoutMsb (n + 2)) restPositive
            ⟨by omega, closed (n + 2) composite marked⟩
          rw [if_pos marked, high]
          rw [withoutMsb] at low
          simp only [Option.bind_some, low]
          refine ⟨_, rfl, holds.set (by omega) inside earlier ?_⟩
          rw [← pow_add]
          exact congrArg (x ^ ·) split.symm
        · rw [if_neg marked]
          refine ⟨powers, rfl, holds.length, ?_⟩
          intro index atLeast available
          have other : index ≠ n + 2 := by
            intro same
            rw [same] at available
            rcases available.2 with isPower | isMarked
            · exact power isPower
            · exact marked isMarked
          exact holds.read index atLeast (earlier index available other)

/-- The linear path leaves the power of each index with a nonzero coefficient. -/
theorem evalPowersLinear_spec (coefficients : List K) (x : K) (enough : 2 ≤ coefficients.length) :
    ∃ sp, evalPowersLinear coefficients x = some sp ∧ ∀ index, 1 ≤ index →
      coefficient coefficients index ≠ 0 → readPower sp.powers (index - 1) = some (x ^ index) := by
  have closed : Closed (neededIndices coefficients (coefficients.length - 1) fun _ => false) := by
    apply neededIndices_closed
    intro j _ marked
    exact Bool.noConfusion marked
  obtain ⟨powers, built, holds⟩ := linearPowers_holds closed x
    (show 1 ≤ coefficients.length - 1 by omega) (coefficients.length - 1) (by omega) le_rfl
  rw [evalPowersLinear]
  simp only [built, Option.bind_eq_bind, Option.bind_some]
  refine ⟨_, rfl, ?_⟩
  intro index positive nonzero
  have inside : index ≤ coefficients.length - 1 := by
    by_contra past
    exact nonzero (ChebyshevSeries.coefficient_of_length_le (by omega))
  apply holds.read index positive
  refine ⟨inside, ?_⟩
  by_cases power : isPowerOfTwo index = true
  · exact Or.inl power
  · right
    exact neededIndices_marks coefficients _ _ (Bool.of_not_eq_true power) inside nonzero

/-- The next index is the last power of two and the distance from it. -/
structure LoopAt (x : K) (k n : Nat) (loop : PowersLoop K) : Prop where
  powers : HoldsPowers x k (· ≤ n) loop.powers
  next : n + 1 = loop.powerOf2 + loop.rem
  inside : loop.rem < loop.powerOf2
  even : ∃ half, 1 ≤ half ∧ loop.powerOf2 = 2 * half

omit [DecidableEq K] in
theorem nextPower_eq {x : K} {k n : Nat} {loop : PowersLoop K} (holds : LoopAt x k n loop)
    (started : 1 ≤ n) (fused : Bool) : nextPower fused (n + 1) loop = some (x ^ (n + 1)) := by
  obtain ⟨half, halfPositive, even⟩ := holds.even
  have next := holds.next
  have inside := holds.inside
  rw [nextPower]
  by_cases first : loop.rem = 0
  · have base := holds.powers.read half halfPositive (by omega)
    have index : loop.powerOf2 / 2 = half := by omega
    rw [if_pos first, index, base, show n + 1 = half + half by omega, pow_add]
    rfl
  · rw [if_neg first]
    cases fused with
    | true =>
        have low := holds.powers.read ((n + 1) / 2) (by omega) (by omega)
        have high := holds.powers.read ((n + 1) / 2 + (n + 1) % 2) (by omega) (by omega)
        have place : (n + 1) / 2 + (n + 1) % 2 - 1 = (n + 1) / 2 - 1 + (n + 1) % 2 := by omega
        rw [place] at high
        have exponent : (n + 1) / 2 + ((n + 1) / 2 + (n + 1) % 2) = n + 1 := by omega
        rw [if_pos rfl, low, high]
        simp only [Option.bind_eq_bind, Option.bind_some]
        rw [← pow_add, exponent]
    | false =>
        have high := holds.powers.read loop.powerOf2 (by omega) (by omega)
        have low := holds.powers.read loop.rem (by omega) (by omega)
        rw [if_neg Bool.false_ne_true, high, low, next, pow_add]
        rfl

omit [DecidableEq K] in
theorem advance_holds {x : K} {k n : Nat} {loop : PowersLoop K} (holds : LoopAt x k n loop)
    (inside : n + 1 ≤ k) : LoopAt x k (n + 1) (advance (n + 1) loop (x ^ (n + 1))) := by
  obtain ⟨half, halfPositive, even⟩ := holds.even
  have next := holds.next
  have below := holds.inside
  have powers : HoldsPowers x k (· ≤ n + 1)
      (loop.powers.set (n + 1 - 1) (some (x ^ (n + 1)))) :=
    holds.powers.set (by omega) inside (fun index available other => by omega) rfl
  rw [advance]
  by_cases last : loop.rem + 1 = loop.powerOf2
  · rw [if_pos last]
    refine ⟨powers, ?_, ?_, loop.powerOf2, by omega, rfl⟩
    · change n + 1 + 1 = 2 * loop.powerOf2 + 0
      omega
    · change 0 < 2 * loop.powerOf2
      omega
  · rw [if_neg last]
    refine ⟨powers, ?_, ?_, half, halfPositive, even⟩
    · change n + 1 + 1 = loop.powerOf2 + (loop.rem + 1)
      omega
    · change loop.rem + 1 < loop.powerOf2
      omega

omit [DecidableEq K] in
theorem densePowers_holds (fused : Bool) (x : K) {k : Nat} (n : Nat) (started : 1 ≤ n)
    (inside : n ≤ k) : ∃ loop, densePowers fused x k n = some loop ∧ LoopAt x k n loop := by
  induction n using Nat.twoStepInduction with
  | zero => omega
  | one =>
      obtain ⟨powers, first, holds⟩ := firstPowers_holds x inside
      rw [densePowers, first]
      refine ⟨_, rfl, ⟨holds.length, ?_⟩, rfl, Nat.zero_lt_two, 1, le_rfl, rfl⟩
      intro index atLeast available
      exact holds.read index atLeast (le_antisymm available atLeast)
  | more n _ ih =>
      obtain ⟨loop, built, holds⟩ := ih (by omega) (by omega)
      rw [densePowers, built]
      simp only [Option.bind_eq_bind, Option.bind_some, nextPower_eq holds (by omega)]
      exact ⟨_, rfl, advance_holds holds inside⟩

/-- The squares and their product follow the loop. -/
structure ExtensionAt (fused : Bool) (x : K) (k m n : Nat) (extension : ExtensionPowers K) :
    Prop where
  length : extension.powers2.length = m
  powers2 : ∀ index, 1 ≤ index → index ≤ n →
    readPower extension.powers2 index = some (x ^ (k * 2 ^ index))
  empty : readPower extension.powers2 0 = none
  norescaleLength : extension.powers2_norescale.length = m
  norescale : fused = true → ∀ index, 1 ≤ index → index ≤ n →
    readPower extension.powers2_norescale index = some (x ^ (k * 2 ^ index))
  power2km1 : extension.power2km1 = x ^ (k * (2 ^ (n + 1) - 1))

omit [Field K] [DecidableEq K] in
theorem readPower_set {powers : List (Option K)} {place : Nat} (inside : place < powers.length)
    (value : K) (index : Nat) :
    readPower (powers.set place (some value)) index =
      if index = place then some value else readPower powers index := by
  rw [readPower, readPower, List.getElem?_set]
  by_cases same : place = index
  · rw [if_pos same, if_pos inside, if_pos same.symm]
    rfl
  · rw [if_neg same, if_neg fun equal => same equal.symm]

theorem extensionPowers_holds (fused : Bool) {x : K} {k m : Nat} {powers : List (Option K)}
    (holds : HoldsPowers x k (· ≤ k) powers) (positive : 1 ≤ k) (n : Nat) (inside : n < m) :
    ∃ extension, extensionPowers fused powers k m n = some extension ∧
      ExtensionAt fused x k m n extension := by
  have last := holds.read k positive le_rfl
  induction n with
  | zero =>
      rw [extensionPowers, last]
      refine ⟨_, rfl, List.length_replicate, ?_, ?_, List.length_replicate, ?_, ?_⟩
      · intro index atLeast atMost
        omega
      · rw [readPower]
        cases m with
        | zero => omega
        | succ m => rfl
      · intro _ index atLeast atMost
        omega
      · simp
  | succ n ih =>
      obtain ⟨extension, built, step⟩ := ih (by omega)
      have base : extensionBase powers extension.powers2 (n + 1) = some (x ^ (k * 2 ^ n)) := by
        rw [extensionBase]
        by_cases first : n + 1 = 1
        · rw [if_pos first, List.getLast?_eq_getElem?, holds.length]
          rw [readPower] at last
          rw [last, show n = 0 by omega, pow_zero, mul_one]
        · rw [if_neg first, Nat.add_sub_cancel]
          exact step.powers2 n (by omega) le_rfl
      have square : x ^ (k * 2 ^ n) * x ^ (k * 2 ^ n) = x ^ (k * 2 ^ (n + 1)) := by
        rw [← pow_add, ← two_mul, pow_succ]
        congr 1
        ring
      have total : k * (2 ^ (n + 1) - 1) + k * 2 ^ (n + 1) = k * (2 ^ (n + 1 + 1) - 1) := by
        rw [← Nat.mul_add, pow_succ 2 (n + 1)]
        have := Nat.two_pow_pos (n + 1)
        congr 1
        omega
      rw [extensionPowers, built]
      simp only [Option.bind_eq_bind, Option.bind_some, base, square]
      refine ⟨_, rfl, ?_, ?_, ?_, ?_, ?_, ?_⟩
      · change (extension.powers2.set _ _).length = m
        rw [List.length_set, step.length]
      · intro index atLeast atMost
        change readPower (extension.powers2.set _ _) index = _
        rw [readPower_set (by rw [step.length]; exact inside)]
        by_cases new : index = n + 1
        · rw [if_pos new, new]
        · rw [if_neg new]
          exact step.powers2 index atLeast (by omega)
      · change readPower (extension.powers2.set _ _) 0 = none
        rw [readPower_set (by rw [step.length]; exact inside), if_neg (by omega)]
        exact step.empty
      · cases fused with
        | false => exact step.norescaleLength
        | true =>
            change (extension.powers2_norescale.set _ _).length = m
            rw [List.length_set, step.norescaleLength]
      · intro isFused index atLeast atMost
        rw [if_pos isFused, readPower_set (by rw [step.norescaleLength]; exact inside)]
        by_cases new : index = n + 1
        · rw [if_pos new, new]
        · rw [if_neg new]
          exact step.norescale isFused index atLeast (by omega)
      · change extension.power2km1 * _ = _
        rw [step.power2km1, ← pow_add, total]

/-- These are the powers that the recursion uses. -/
structure PowersAt (fused : Bool) (x : K) (k m : Nat) (sp : SeriesPowers K) : Prop where
  sizes : sp.k = k ∧ sp.m = m
  powers : HoldsPowers x k (· ≤ k) sp.powers
  length2 : sp.powers2.length = m
  powers2 : ∀ index, 1 ≤ index → index < m →
    readPower sp.powers2 index = some (x ^ (k * 2 ^ index))
  empty : readPower sp.powers2 0 = none
  norescale : fused = true → ∀ index, 1 ≤ index → index < m →
    readPower sp.powers2_norescale index = some (x ^ (k * 2 ^ index))
  power2km1 : sp.power2km1 = some (x ^ (k * (2 ^ m - 1)))

theorem evalPowersPS_spec {ComputeDegreesPS : Nat → Nat × Nat} {degree k m : Nat}
    (degrees : ComputeDegreesPS degree = (k, m)) (kPositive : 1 ≤ k) (mPositive : 1 ≤ m)
    (x : K) (fused : Bool) :
    ∃ sp, evalPowersPS ComputeDegreesPS x degree fused = some sp ∧ PowersAt fused x k m sp := by
  obtain ⟨loop, built, holds⟩ := densePowers_holds fused x k kPositive le_rfl
  obtain ⟨extension, extended, step⟩ := @extensionPowers_holds K _ _ fused x k m _ holds.powers
    kPositive (m - 1) (by omega)
  rw [evalPowersPS]
  simp only [degrees, built, extended, Option.bind_eq_bind, Option.bind_some]
  refine ⟨_, rfl, ⟨rfl, rfl⟩, holds.powers, step.length, ?_, step.empty, ?_, ?_⟩
  · intro index atLeast below
    exact step.powers2 index atLeast (by omega)
  · intro isFused index atLeast below
    exact step.norescale isFused index atLeast (by omega)
  · rw [step.power2km1, Nat.sub_add_cancel mPositive]

end

end Fideslib.PowerBasis
