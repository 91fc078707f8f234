/-
This file develops modular reduction by an estimated quotient and one correction.
-/

import Mathlib.Tactic

namespace WordReduction

/-- A word subtraction wraps around. -/
def difference (word a b : Nat) : Nat := (a + (word - b % word)) % word

/-- A correction subtracts the modulus at most once. -/
def correct (p x : Nat) : Nat := if p ≤ x then x - p else x

/-- The wraparound does not show where the true difference fits a word. -/
theorem difference_eq {word a b : Nat} (below : b ≤ a) (fits : a - b < word) :
    difference word a b = a - b := by
  have positive : 0 < word := by omega
  have split := Nat.div_add_mod b word
  have small := Nat.mod_lt b positive
  unfold difference
  have same : a + (word - b % word) = a - b + word * (b / word + 1) := by
    rw [Nat.mul_add, Nat.mul_one]
    omega
  rw [same, Nat.add_mul_mod_self_left, Nat.mod_eq_of_lt fits]

/-- A number below twice the modulus is reduced by one correction. -/
theorem correct_eq {p x : Nat} (small : x < 2 * p) : correct p x = x % p := by
  unfold correct
  split_ifs with large
  · rw [Nat.mod_eq_sub_mod large, Nat.mod_eq_of_lt (by omega)]
  · rw [Nat.mod_eq_of_lt (by omega)]

/-- A quotient that is at most one too small gives the residue after one correction. -/
theorem correct_difference {word p n quotient : Nat} (wide : 2 * p ≤ word)
    (low : quotient * p ≤ n) (close : n < quotient * p + 2 * p) :
    correct p (difference word n (quotient * p)) = n % p := by
  rw [difference_eq low (by omega), correct_eq (by omega)]
  have split : n = n - quotient * p + p * quotient := by
    rw [Nat.mul_comm p]
    omega
  conv_rhs => rw [split, Nat.add_mul_mod_self_left]

/-- The quotient by a precomputed ratio is at most one too small. -/
theorem ratio_estimate {word p a w : Nat} (positive : 0 < p) (word_pos : 0 < word)
    (small : a < word) :
    a * (w * word / p) / word * p ≤ a * w ∧
      a * w < a * (w * word / p) / word * p + 2 * p := by
  set ratio := w * word / p with ratio_def
  set quotient := a * ratio / word with quotient_def
  have ratioSplit : p * ratio + w * word % p = w * word := Nat.div_add_mod _ _
  have ratioRest : w * word % p < p := Nat.mod_lt _ positive
  have quotientSplit : word * quotient + a * ratio % word = a * ratio := Nat.div_add_mod _ _
  have quotientRest : a * ratio % word < word := Nat.mod_lt _ word_pos
  set firstRest := w * word % p
  set secondRest := a * ratio % word
  have whole : word * (a * w) =
      word * (quotient * p) + (secondRest * p + a * firstRest) := by
    calc word * (a * w) = a * (w * word) := by ring
      _ = a * (p * ratio + firstRest) := by rw [ratioSplit]
      _ = p * (a * ratio) + a * firstRest := by ring
      _ = p * (word * quotient + secondRest) + a * firstRest := by rw [quotientSplit]
      _ = word * (quotient * p) + (secondRest * p + a * firstRest) := by ring
  have rest : secondRest * p + a * firstRest < word * (2 * p) := by
    have first : secondRest * p < word * p := Nat.mul_lt_mul_of_pos_right quotientRest positive
    have second : a * firstRest ≤ word * p := Nat.mul_le_mul small.le ratioRest.le
    calc secondRest * p + a * firstRest < word * p + word * p := by omega
      _ = word * (2 * p) := by ring
  constructor
  · exact Nat.le_of_mul_le_mul_left (by omega) word_pos
  · have scaled : word * (a * w) < word * (quotient * p + 2 * p) := by
      rw [Nat.mul_add]
      omega
    exact Nat.lt_of_mul_lt_mul_left scaled

/-- The quotient from the leading digits is at most one too small. -/
theorem leading_estimate {base p n : Nat} (base_pos : 0 < base) (large : 2 * base ≤ p)
    (small : n < 16 * (base * base)) :
    n / base * (32 * (base * base) / p) / (32 * base) * p ≤ n ∧
      n < n / base * (32 * (base * base) / p) / (32 * base) * p + 2 * p := by
  have positive : 0 < p := by omega
  set leading := n / base
  set ratio := 32 * (base * base) / p
  set quotient := leading * ratio / (32 * base)
  have leadingLow : leading * base ≤ n := Nat.div_mul_le_self _ _
  have leadingHigh : n < (leading + 1) * base := by
    rw [Nat.mul_comm]
    exact Nat.lt_mul_div_succ n base_pos
  have ratioLow : ratio * p ≤ 32 * (base * base) := Nat.div_mul_le_self _ _
  have ratioHigh : 32 * (base * base) < (ratio + 1) * p := by
    rw [Nat.mul_comm (ratio + 1)]
    exact Nat.lt_mul_div_succ _ positive
  have quotientLow : quotient * (32 * base) ≤ leading * ratio := Nat.div_mul_le_self _ _
  have quotientHigh : leading * ratio < (quotient + 1) * (32 * base) := by
    rw [Nat.mul_comm (quotient + 1)]
    exact Nat.lt_mul_div_succ _ (by omega)
  have scale : 0 < 32 * base := by omega
  constructor
  · apply Nat.le_of_mul_le_mul_left _ scale
    calc 32 * base * (quotient * p) = quotient * (32 * base) * p := by ring
      _ ≤ leading * ratio * p := Nat.mul_le_mul_right _ quotientLow
      _ = leading * (ratio * p) := by ring
      _ ≤ leading * (32 * (base * base)) := Nat.mul_le_mul_left _ ratioLow
      _ = 32 * base * (leading * base) := by ring
      _ ≤ 32 * base * n := Nat.mul_le_mul_left _ leadingLow
  · -- The two remainders that the digits leave out add up to one unit of the quotient.
    have leadingSmall : leading < 16 * base := by
      apply Nat.div_lt_of_lt_mul
      calc n < 16 * (base * base) := small
        _ = base * (16 * base) := by ring
    have ratioSmall : ratio ≤ 16 * base := by
      apply Nat.div_le_of_le_mul
      calc 32 * (base * base) = 2 * base * (16 * base) := by ring
        _ ≤ p * (16 * base) := Nat.mul_le_mul_right _ large
    have digits : (leading + 1) * (ratio + 1) ≤ (quotient + 2) * (32 * base) := by
      calc (leading + 1) * (ratio + 1) = leading * ratio + 1 + (leading + ratio) := by ring
        _ ≤ (quotient + 1) * (32 * base) + 32 * base := by omega
        _ = (quotient + 2) * (32 * base) := by ring
    have scaled : n * (32 * (base * base)) < (quotient + 2) * p * (32 * (base * base)) := by
      calc n * (32 * (base * base)) < (leading + 1) * base * ((ratio + 1) * p) :=
            Nat.mul_lt_mul'' leadingHigh ratioHigh
        _ = (leading + 1) * (ratio + 1) * (base * p) := by ring
        _ ≤ (quotient + 2) * (32 * base) * (base * p) := Nat.mul_le_mul_right _ digits
        _ = (quotient + 2) * p * (32 * (base * base)) := by ring
    have bound := Nat.lt_of_mul_lt_mul_right scaled
    calc n < (quotient + 2) * p := bound
      _ = quotient * p + 2 * p := by ring

/-- The quotient is estimated from the leading digits in words of the given width. -/
def leadingQuotient (width bits ratio n : Nat) : Nat :=
  let leading := (n >>> (bits - 2)) % 2 ^ width
  (leading <<< (width - 2 - bits) % 2 ^ width * ratio / 2 ^ width) >>> 1

/-- No word of the estimate loses a digit, and the remainder needs at most one correction. -/
structure LeadingFits (width bits p n : Nat) : Prop where
  leading : n >>> (bits - 2) < 2 ^ width
  shifted : (n >>> (bits - 2)) <<< (width - 2 - bits) < 2 ^ width
  ratio : 1 <<< (2 * bits + 1) / p < 2 ^ width
  below : leadingQuotient width bits (1 <<< (2 * bits + 1) / p) n * p ≤ n
  close : n < leadingQuotient width bits (1 <<< (2 * bits + 1) / p) n * p + 2 * p

/-- A power of two as the modulus needs one more free bit. -/
theorem leadingFits {width bits p n : Nat} (two : 2 ≤ bits) (room : bits + 2 ≤ width)
    (low : 2 ^ (bits - 1) ≤ p) (tight : 2 ^ (bits - 1) < p ∨ bits + 2 < width) (high : p < 2 ^ bits)
    (small : n < p * p) : LeadingFits width bits p n := by
  obtain ⟨k, rfl⟩ := Nat.exists_eq_add_of_le' two
  obtain ⟨free, rfl⟩ := Nat.exists_eq_add_of_le room
  have positive := Nat.two_pow_pos k
  set base := 2 ^ k with base_def
  rw [show k + 2 - 1 = k + 1 by omega, pow_succ] at low tight
  rw [pow_add] at high
  have large : 2 * base ≤ p := by omega
  have product : n < 16 * (base * base) := by
    calc n < p * p := small
      _ ≤ 4 * base * (4 * base) := Nat.mul_le_mul (by omega) (by omega)
      _ = 16 * (base * base) := by ring
  have leading : n / base < 16 * base := by
    apply Nat.div_lt_of_lt_mul
    calc n < 16 * (base * base) := product
      _ = base * (16 * base) := by ring
  have whole : 2 ^ (k + 2 + 2 + free) = 16 * base * 2 ^ free := by
    rw [pow_add, pow_add, pow_add, ← base_def]
    ring
  have ratio_power : 1 <<< (2 * (k + 2) + 1) = 32 * (base * base) := by
    rw [Nat.shiftLeft_eq, one_mul, base_def, ← pow_add, show (32 : Nat) = 2 ^ 5 by rfl, ← pow_add]
    congr 1
    omega
  have one : 1 ≤ 2 ^ free := Nat.one_le_two_pow
  have leading_word : n / base < 2 ^ (k + 2 + 2 + free) := by
    calc n / base < 16 * base * 1 := by omega
      _ ≤ 2 ^ (k + 2 + 2 + free) := whole ▸ Nat.mul_le_mul_left _ one
  have ratio : 32 * (base * base) / p < 2 ^ (k + 2 + 2 + free) := by
    apply Nat.div_lt_of_lt_mul
    rw [whole]
    rcases tight with above | free_pos
    · calc 32 * (base * base) = 2 * base * (16 * base * 1) := by ring
        _ < p * (16 * base * 1) := Nat.mul_lt_mul_of_pos_right (by omega) (by omega)
        _ ≤ p * (16 * base * 2 ^ free) := Nat.mul_le_mul_left _ (Nat.mul_le_mul_left _ one)
    · have more : 1 < 2 ^ free := Nat.one_lt_two_pow (by omega)
      calc 32 * (base * base) = 2 * base * (16 * base * 1) := by ring
        _ < 2 * base * (16 * base * 2 ^ free) :=
          Nat.mul_lt_mul_of_pos_left (Nat.mul_lt_mul_of_pos_left more (by omega)) (by omega)
        _ ≤ p * (16 * base * 2 ^ free) := Nat.mul_le_mul_right _ large
  have shifted : n / base * 2 ^ free < 2 ^ (k + 2 + 2 + free) := by
    rw [whole]
    exact Nat.mul_lt_mul_of_pos_right leading (by omega)
  have exponent : k + 2 + 2 + free - 2 - (k + 2) = free := by omega
  -- The shift in front of the high product cancels against the word.
  have quotient : leadingQuotient (k + 2 + 2 + free) (k + 2) (32 * (base * base) / p) n =
      n / base * (32 * (base * base) / p) / (32 * base) := by
    simp only [leadingQuotient, exponent, Nat.add_sub_cancel, Nat.shiftRight_eq_div_pow, pow_one,
      ← base_def, Nat.mod_eq_of_lt leading_word, Nat.shiftLeft_eq, Nat.mod_eq_of_lt shifted]
    rw [Nat.div_div_eq_div_mul, whole, Nat.mul_right_comm, Nat.mul_right_comm (16 * base),
      Nat.mul_div_mul_right _ _ one, show 16 * base * 2 = 32 * base by ring]
  obtain ⟨below, close⟩ := leading_estimate positive large product
  rw [← quotient] at below close
  exact {
    leading := by rwa [Nat.add_sub_cancel, Nat.shiftRight_eq_div_pow, ← base_def]
    shifted := by
      rwa [exponent, Nat.add_sub_cancel, Nat.shiftRight_eq_div_pow, ← base_def, Nat.shiftLeft_eq]
    ratio := by rwa [ratio_power]
    below := by rwa [ratio_power]
    close := by rwa [ratio_power] }

/-- An accumulator of a fixed width wraps around after each term. -/
def wrappingSum (width : Nat) (term : Nat → Nat) (count : Nat) : Nat :=
  (List.range count).foldl (fun sum i => (sum + term i) % width) 0

theorem wrappingSum_mod (width : Nat) (term : Nat → Nat) (count : Nat) :
    wrappingSum width term count % width = (∑ i ∈ Finset.range count, term i) % width := by
  induction count with
  | zero => rfl
  | succ count inductionHypothesis =>
      rw [wrappingSum, List.range_succ, List.foldl_append, List.foldl_cons, List.foldl_nil,
        Nat.mod_mod, Finset.sum_range_succ, Nat.add_mod, ← wrappingSum, inductionHypothesis,
        ← Nat.add_mod]

theorem wrappingSum_lt {width : Nat} (positive : 0 < width) (term : Nat → Nat) (count : Nat) :
    wrappingSum width term count < width := by
  cases count with
  | zero => exact positive
  | succ count =>
      rw [wrappingSum, List.range_succ, List.foldl_append, List.foldl_cons, List.foldl_nil]
      exact Nat.mod_lt _ positive

/-- The wraparound does not show where the terms share the width. -/
theorem wrappingSum_eq {width bound count : Nat} {term : Nat → Nat}
    (terms : ∀ i, i < count → term i ≤ bound) (fits : count * bound < width) :
    wrappingSum width term count = ∑ i ∈ Finset.range count, term i := by
  have total : ∑ i ∈ Finset.range count, term i ≤ count * bound := by
    have each := Finset.sum_le_card_nsmul (Finset.range count) term bound fun i member =>
      terms i (Finset.mem_range.mp member)
    rwa [Finset.card_range, smul_eq_mul] at each
  have small := wrappingSum_lt (show 0 < width by omega) term count
  have same := wrappingSum_mod width term count
  rwa [Nat.mod_eq_of_lt small, Nat.mod_eq_of_lt (by omega)] at same

/-- The low half of a double ratio is the ratio of the residue. -/
theorem double_ratio_low {word p : Nat} (b : Nat) (positive : 0 < p) (word_pos : 0 < word) :
    b * (word * word) / p % word = b * word % p * word / p := by
  have split : b * (word * word) = b * word % p * word + p * (b * word / p * word) := by
    have parts := Nat.mod_add_div (b * word) p
    calc b * (word * word) = b * word * word := by ring
      _ = (b * word % p + p * (b * word / p)) * word := by rw [parts]
      _ = b * word % p * word + p * (b * word / p * word) := by ring
  have rest : b * word % p < p := Nat.mod_lt _ positive
  have small : b * word % p * word / p < word :=
    Nat.div_lt_of_lt_mul (Nat.mul_lt_mul_of_pos_right rest word_pos)
  rw [split, Nat.add_mul_div_left _ _ positive, Nat.add_mul_mod_self_right,
    Nat.mod_eq_of_lt small]

/-- A word subtraction is undone modulo the word. -/
theorem difference_add (word a b : Nat) (positive : 0 < word) :
    Nat.ModEq word (difference word a b + b) a := by
  have small := Nat.mod_lt b positive
  have split := Nat.mod_add_div b word
  have whole : a + (word - b % word) + b = a + word * (1 + b / word) := by
    rw [Nat.mul_add, Nat.mul_one]
    omega
  have inner : Nat.ModEq word (difference word a b) (a + (word - b % word)) := Nat.mod_modEq _ _
  refine (inner.add_right b).trans ?_
  rw [whole]
  exact Nat.modEq_iff_dvd.mpr ⟨-(1 + b / word), by push_cast; ring⟩

/-- One corrected difference subtracts the quotient or one more modulus. -/
theorem correct_difference_quotient {word p : Nat} (y quotient : Nat) (positive : 0 < word) :
    ∃ subtracted, quotient ≤ subtracted ∧ subtracted ≤ quotient + 1 ∧
      Nat.ModEq word (correct p (difference word y (quotient * p)) + subtracted * p) y := by
  have whole := difference_add word y (quotient * p) positive
  by_cases large : p ≤ difference word y (quotient * p)
  · refine ⟨quotient + 1, by omega, le_rfl, ?_⟩
    have same : correct p (difference word y (quotient * p)) + (quotient + 1) * p =
        difference word y (quotient * p) + quotient * p := by
      rw [correct, if_pos large, Nat.add_mul, Nat.one_mul]
      omega
    rw [same]
    exact whole
  · refine ⟨quotient, le_rfl, by omega, ?_⟩
    rw [correct, if_neg large]
    exact whole

end WordReduction
