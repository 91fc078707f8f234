/-
This file models the search for a root of unity and proves when the root has its order.
-/

import Fideslib.Modular.Words
import Mathlib.NumberTheory.LegendreSymbol.Basic
import Mathlib.RingTheory.ZMod.UnitsCyclic

namespace Fideslib.Twiddles

open Fideslib.Modular

/-- The setup of the tables ends with these failures. -/
inductive Failure where
  | assertion (condition : String)
  | outOfRange
  | unset
deriving DecidableEq, Repr

/-- An expression of type int is cut to 32 bits and extended with its sign to 64 bits. -/
def wordOf (value : Int) : Nat := (value.bmod (2 ^ 32) % 2 ^ 64).toNat

/-- The factor is divided out until it no longer divides the number. -/
def divideOut (i : Nat) : Nat → Nat → Option Nat
  | 0, _ => none
  | fuel + 1, n => if n % i = 0 then divideOut i fuel (n / i) else some n

/-- The last cofactor is a factor unless it is one. -/
def factorLoop : Nat → Nat → Nat → List Nat → Option (List Nat)
  | 0, _, _, _ => none
  | fuel + 1, i, n, fact =>
      if i * i % 2 ^ 64 ≤ n then
        if n % i = 0 then
          (divideOut i fuel n).bind fun rest =>
            factorLoop fuel ((i + 1) % 2 ^ 64) rest (fact ++ [i])
        else factorLoop fuel ((i + 1) % 2 ^ 64) n fact
      else some (if 1 < n then fact ++ [n] else fact)

/-- A candidate must have no power of one at any quotient by a factor. -/
def candidate (p phi : Nat) (fact : List Nat) (res : Nat) : Bool :=
  fact.all fun f => decide (modpow res (phi / f) p ≠ 1)

def searchLoop (p phi : Nat) (fact : List Nat) : Nat → Nat → Option Nat
  | 0, _ => none
  | fuel + 1, res =>
      if res ≤ p then
        if candidate p phi fact res then some res
        else searchLoop p phi fact fuel ((res + 1) % 2 ^ 64)
      else some 0

/-- The result is returned as an int. -/
def generator (fuel p : Nat) : Option Int :=
  let phi := p - 1
  (factorLoop fuel 2 phi []).bind fun fact =>
    (searchLoop p phi fact fuel 2).map fun (res : Nat) => (res : Int).bmod (2 ^ 32)

def unity_root (fuel q order : Nat) : Option (Except Failure Nat) :=
  if q % order = 1 then
    (generator fuel q).map fun result =>
      let c := q / order
      let g := wordOf result
      if g = 0 then .error (.assertion "g != 0")
      else
        let res := modpow g c q
        if modpow res order q = 1 then .ok res
        else .error (.assertion "modpow(res, order, q) == 1")
  else some (.error (.assertion "q % order == 1"))

section Factors

/-- The rest keeps all prime factors but the one that is divided out. -/
theorem divideOut_spec {i fuel n : Nat} (prime : i.Prime) (positive : 0 < n) (enough : n < 2 ^ fuel) :
    ∃ rest, divideOut i fuel n = some rest ∧ 0 < rest ∧ rest ≤ n ∧ (i ∣ n → 2 * rest ≤ n) ∧
      ¬i ∣ rest ∧ ∀ l : Nat, l.Prime → l ≠ i → (l ∣ rest ↔ l ∣ n) := by
  induction fuel generalizing n with
  | zero => omega
  | succ fuel inductionHypothesis =>
      have two := prime.two_le
      rw [divideOut]
      split
      · rename_i exact_
        have divides := Nat.dvd_of_mod_eq_zero exact_
        have quotient := Nat.div_mul_cancel divides
        have small : n / i * 2 ≤ n := by
          calc n / i * 2 ≤ n / i * i := Nat.mul_le_mul_left _ two
            _ = n := quotient
        have next : 0 < n / i := Nat.div_pos (Nat.le_of_dvd positive divides) (by omega)
        rw [pow_succ] at enough
        obtain ⟨rest, done, nonzero, bound, -, gone, kept⟩ := inductionHypothesis next (by omega)
        refine ⟨rest, done, nonzero, by omega, fun _ => by omega, gone, fun l other different => ?_⟩
        rw [kept l other different]
        constructor
        · exact fun divisor => divisor.trans (Nat.div_dvd_of_dvd divides)
        · intro divisor
          rw [← quotient] at divisor
          rcases other.dvd_mul.mp divisor with inside | same
          · exact inside
          · exact absurd ((Nat.prime_dvd_prime_iff_eq other prime).mp same) different
      · rename_i remainder
        have none : ¬i ∣ n := fun divides => remainder (Nat.mod_eq_zero_of_dvd divides)
        exact ⟨n, rfl, positive, le_rfl, fun divides => absurd divides none, none,
          fun _ _ _ => Iff.rfl⟩

/-- Before each round the factors below the next candidate have been found and divided out. -/
structure Trial (phi i n : Nat) (fact : List Nat) : Prop where
  large : 2 ≤ i
  positive : 0 < n
  below : n < 2 ^ 63 ∨ i = 2 ∧ n < 2 ^ 64 ∧ n % 2 = 0
  bound : (i - 1) * (i - 1) ≤ 2 ^ 63
  primes : ∀ f ∈ fact, f.Prime
  found : ∀ l : Nat, l.Prime → (l ∣ phi ↔ l ∈ fact ∨ l ∣ n)
  rest : ∀ l : Nat, l.Prime → l ∣ n → i ≤ l

variable {phi i n : Nat} {fact : List Nat} (trial : Trial phi i n fact)

include trial

theorem Trial.candidate_le : i ≤ 3037000500 := by
  have bound := trial.bound
  by_contra more
  have square : 3037000500 * 3037000500 ≤ (i - 1) * (i - 1) :=
    Nat.mul_le_mul (by omega) (by omega)
  omega

/-- The square of a candidate does not wrap. -/
theorem Trial.square : i * i % 2 ^ 64 = i * i := by
  have bound := trial.candidate_le
  apply Nat.mod_eq_of_lt
  calc i * i ≤ 3037000500 * 3037000500 := Nat.mul_le_mul bound bound
    _ < 2 ^ 64 := by norm_num

theorem Trial.next_bound (again : i * i ≤ n) : n < 2 ^ 63 ∨ i = 2 → i * i ≤ 2 ^ 63 := by
  rintro (small | rfl)
  · omega
  · norm_num

theorem Trial.skip (again : i * i ≤ n) (other : n % i ≠ 0) : Trial phi (i + 1) n fact := by
  have notTwo : n < 2 ^ 63 := by
    rcases trial.below with small | ⟨rfl, -, even⟩
    · exact small
    · exact absurd even other
  exact {
    large := by
      have large := trial.large
      omega
    positive := trial.positive
    below := Or.inl notTwo
    bound := by
      rw [Nat.add_sub_cancel]
      omega
    primes := trial.primes
    found := trial.found
    rest := by
      intro l prime divides
      have least := trial.rest l prime divides
      have different : l ≠ i := by
        rintro rfl
        exact other (Nat.mod_eq_zero_of_dvd divides)
      omega }

/-- The first candidate that divides the cofactor is a prime. -/
theorem Trial.prime (divides : i ∣ n) : i.Prime := by
  have large := trial.large
  have least := trial.rest i.minFac (Nat.minFac_prime (by omega)) ((Nat.minFac_dvd i).trans divides)
  have same : i.minFac = i := le_antisymm (Nat.minFac_le (by omega)) least
  rw [← same]
  exact Nat.minFac_prime (by omega)

theorem Trial.divide (again : i * i ≤ n) (divides : i ∣ n) {rest : Nat} (positive : 0 < rest)
    (half : 2 * rest ≤ n) (gone : ¬i ∣ rest)
    (kept : ∀ l : Nat, l.Prime → l ≠ i → (l ∣ rest ↔ l ∣ n)) :
    Trial phi (i + 1) rest (fact ++ [i]) := by
  have prime := trial.prime divides
  have small : rest < 2 ^ 63 := by
    rcases trial.below with small | ⟨-, wide, -⟩ <;> omega
  exact {
    large := by
      have large := trial.large
      omega
    positive
    below := Or.inl small
    bound := by
      rw [Nat.add_sub_cancel]
      apply trial.next_bound again
      rcases trial.below with small | ⟨two, -, -⟩
      · exact Or.inl small
      · exact Or.inr two
    primes := by
      intro f member
      rcases List.mem_append.mp member with before | here
      · exact trial.primes f before
      · rw [List.mem_singleton.mp here]
        exact prime
    found := by
      intro l other
      rw [trial.found l other, List.mem_append, List.mem_singleton]
      by_cases same : l = i
      · rw [same]
        simp only [divides, or_true, true_or]
      · rw [kept l other same]
        simp only [same, or_false]
    rest := by
      intro l other divisor
      have different : l ≠ i := by
        rintro rfl
        exact gone divisor
      have least := trial.rest l other ((kept l other different).mp divisor)
      omega }

/-- When the square of the candidate is larger, the cofactor is one or a prime. -/
theorem Trial.finish (done : n < i * i) :
    let found := if 1 < n then fact ++ [n] else fact
    (∀ f ∈ found, f.Prime) ∧ ∀ l : Nat, l.Prime → (l ∣ phi ↔ l ∈ found) := by
  have positive := trial.positive
  by_cases more : 1 < n
  · have prime : n.Prime := by
      by_contra composite
      have least := trial.rest n.minFac (Nat.minFac_prime (by omega)) (Nat.minFac_dvd n)
      have square := Nat.minFac_sq_le_self positive composite
      have large : i * i ≤ n.minFac ^ 2 := by
        rw [pow_two]
        exact Nat.mul_le_mul least least
      omega
    simp only [more, if_true]
    constructor
    · intro f member
      rcases List.mem_append.mp member with before | here
      · exact trial.primes f before
      · rw [List.mem_singleton.mp here]
        exact prime
    · intro l other
      rw [trial.found l other, List.mem_append, List.mem_singleton,
        Nat.prime_dvd_prime_iff_eq other prime]
  · have one : n = 1 := by omega
    simp only [more, if_false]
    refine ⟨trial.primes, fun l other => ?_⟩
    rw [trial.found l other, one, Nat.dvd_one]
    simp only [other.one_lt.ne', or_false]

/-- Trial division finds exactly the prime factors, and it needs no more than this fuel. -/
theorem factorLoop_spec {fuel : Nat} (enough : 2 ^ 32 ≤ fuel + i) :
    ∃ found, factorLoop fuel i n fact = some found ∧ (∀ f ∈ found, f.Prime) ∧
      ∀ l : Nat, l.Prime → (l ∣ phi ↔ l ∈ found) := by
  induction fuel generalizing i n fact with
  | zero =>
      have bound := trial.candidate_le
      omega
  | succ fuel inductionHypothesis =>
      have bound := trial.candidate_le
      have next : (i + 1) % 2 ^ 64 = i + 1 := Nat.mod_eq_of_lt (by omega)
      rw [factorLoop, trial.square, next]
      split
      · rename_i again
        split
        · rename_i exact_
          have divides := Nat.dvd_of_mod_eq_zero exact_
          have small : n < 2 ^ fuel := by
            have wide : n < 2 ^ 64 := by
              rcases trial.below with small | ⟨-, wide, -⟩ <;> omega
            exact wide.trans_le (Nat.pow_le_pow_right two_pos (by omega))
          obtain ⟨rest, done, positive, -, half, gone, kept⟩ :=
            divideOut_spec (trial.prime divides) trial.positive small
          rw [done]
          exact inductionHypothesis
            (trial.divide again divides positive (half divides) gone kept) (by omega)
        · rename_i other
          exact inductionHypothesis (trial.skip again other) (by omega)
      · rename_i done
        exact ⟨_, rfl, trial.finish (by omega)⟩

end Factors

end Fideslib.Twiddles

namespace Fideslib.Twiddles

open Fideslib.Modular

variable {q : Nat}

/-- The least primitive root of a prime above one. -/
def LeastRoot (q g : Nat) : Prop := IsLeast {r : Nat | 2 ≤ r ∧ orderOf (r : ZMod q) = q - 1} g

section Power

theorem modpow_lt {p : Nat} (large : 1 < p) (a e : Nat) : modpow a e p < p :=
  modpowLoop_lt a e large

theorem modpow_cast (a e p : Nat) : ((modpow a e p : Nat) : ZMod p) = (a : ZMod p) ^ e := by
  rw [modpow, modpowLoop_cast, Nat.cast_one, mul_one]

/-- Canonical words are equal if they are the same residue. -/
theorem word_eq_iff {p a b : Nat} (left : a < p) (right : b < p) :
    (a : ZMod p) = b ↔ a = b := by
  rw [ZMod.natCast_eq_natCast_iff', Nat.mod_eq_of_lt left, Nat.mod_eq_of_lt right]

theorem modpow_eq_one_iff {p : Nat} (large : 1 < p) (a e : Nat) :
    modpow a e p = 1 ↔ (a : ZMod p) ^ e = 1 := by
  rw [← word_eq_iff (modpow_lt large a e) large, modpow_cast, Nat.cast_one]

end Power

section Search

variable (prime : q.Prime) (odd : q ≠ 2)

include prime odd

theorem even_phi : (q - 1) % 2 = 0 := by
  have parity := prime.eq_two_or_odd.resolve_left odd
  omega

theorem large_prime : 3 ≤ q := by
  have two := prime.two_le
  omega

theorem trial_start (word : q < 2 ^ 64) : Trial (q - 1) 2 (q - 1) [] where
  large := le_rfl
  positive := by
    have large := large_prime prime odd
    omega
  below := Or.inr ⟨rfl, by omega, even_phi prime odd⟩
  bound := by norm_num
  primes := by
    intro f member
    cases member
  found := by simp
  rest := fun l other _ => other.two_le

/-- A prime has a least primitive root, and it is below the prime. -/
theorem exists_leastRoot : ∃ g, LeastRoot q g ∧ g < q := by
  have fact : Fact q.Prime := ⟨prime⟩
  have large := large_prime prime odd
  obtain ⟨u, generates⟩ := @IsCyclic.exists_generator (ZMod q)ˣ _ _
  have full : orderOf u = q - 1 := by
    rw [orderOf_eq_card_of_forall_mem_zpowers generates, Nat.card_eq_fintype_card,
      ZMod.card_units]
  have value : (((u : ZMod q).val : Nat) : ZMod q) = u := ZMod.natCast_zmod_val _
  have order : orderOf (((u : ZMod q).val : Nat) : ZMod q) = q - 1 := by
    rw [value, orderOf_units, full]
  have two : 2 ≤ (u : ZMod q).val := by
    by_contra small
    have cases : (u : ZMod q).val = 0 ∨ (u : ZMod q).val = 1 := by omega
    rcases cases with zero | one
    · exact u.ne_zero ((ZMod.val_eq_zero _).mp zero)
    · rw [one, Nat.cast_one, orderOf_one] at order
      omega
  have member : (u : ZMod q).val ∈ {r : Nat | 2 ≤ r ∧ orderOf (r : ZMod q) = q - 1} := ⟨two, order⟩
  exact ⟨_, ⟨Nat.sInf_mem ⟨_, member⟩, fun r inside => Nat.sInf_le inside⟩,
    (Nat.sInf_le member).trans_lt (ZMod.val_lt _)⟩

/-- A candidate below the prime passes if and only if it is a primitive root. -/
theorem candidate_iff {fact : List Nat} (primes : ∀ f ∈ fact, f.Prime)
    (found : ∀ l : Nat, l.Prime → (l ∣ q - 1 ↔ l ∈ fact)) {res : Nat} (positive : 0 < res)
    (small : res < q) :
    candidate q (q - 1) fact res = true ↔ orderOf (res : ZMod q) = q - 1 := by
  have isPrime : Fact q.Prime := ⟨prime⟩
  have large := large_prime prime odd
  have power (e : Nat) : modpow res e q = 1 ↔ (res : ZMod q) ^ e = 1 :=
    modpow_eq_one_iff (by omega) res e
  have nonzero : (res : ZMod q) ≠ 0 := by
    rw [Ne, ZMod.natCast_eq_zero_iff]
    exact Nat.not_dvd_of_pos_of_lt positive small
  simp only [candidate, List.all_eq_true, decide_eq_true_eq, ne_eq, power]
  constructor
  · intro passes
    exact orderOf_eq_of_pow_and_pow_div_prime (by omega) (ZMod.pow_card_sub_one_eq_one nonzero)
      fun l other divides => passes l ((found l other).mp divides)
  · intro order f member one
    have divides := orderOf_dvd_of_pow_eq_one one
    have factor := (found f (primes f member)).mpr member
    have two := (primes f member).two_le
    rw [order] at divides
    have quotient := Nat.div_mul_cancel factor
    have nonempty : 0 < (q - 1) / f := Nat.div_pos (Nat.le_of_dvd (by omega) factor) (by omega)
    have bound := Nat.le_of_dvd nonempty divides
    have double : (q - 1) / f * 2 ≤ (q - 1) / f * f := Nat.mul_le_mul_left _ two
    omega

/-- The search returns the least primitive root. -/
theorem searchLoop_spec (word : q < 2 ^ 64) {fact : List Nat} (primes : ∀ f ∈ fact, f.Prime)
    (found : ∀ l : Nat, l.Prime → (l ∣ q - 1 ↔ l ∈ fact)) {g : Nat} (least : LeastRoot q g)
    (inside : g < q) {fuel res : Nat} (start : 2 ≤ res) (before : res ≤ g)
    (enough : g < fuel + res) : searchLoop q (q - 1) fact fuel res = some g := by
  induction fuel generalizing res with
  | zero => omega
  | succ fuel inductionHypothesis =>
      have passes := candidate_iff prime odd primes found (show 0 < res by omega) (by omega)
      rw [searchLoop, if_pos (by omega)]
      by_cases here : orderOf (res : ZMod q) = q - 1
      · rw [if_pos (passes.mpr here)]
        exact congrArg some (le_antisymm before (least.2 ⟨start, here⟩))
      · have different : res ≠ g := by
          rintro rfl
          exact here least.1.2
        rw [if_neg fun pass => here (passes.mp pass), Nat.mod_eq_of_lt (by omega)]
        exact inductionHypothesis (by omega) (by omega) (by omega)

/-- The generator of a prime is its least primitive root as an int. -/
theorem generator_spec (word : q < 2 ^ 64) {g : Nat} (least : LeastRoot q g) {fuel : Nat}
    (enough : 2 ^ 64 ≤ fuel) : generator fuel q = some ((g : Int).bmod (2 ^ 32)) := by
  obtain ⟨other, otherLeast, below⟩ := exists_leastRoot prime odd
  have inside : g < q := by rwa [least.unique otherLeast]
  obtain ⟨found, done, primes, all⟩ := factorLoop_spec (trial_start prime odd word)
    (show 2 ^ 32 ≤ fuel + 2 by omega)
  rw [generator, done, Option.bind_some, searchLoop_spec prime odd word primes all least inside le_rfl
    least.1.1 (by omega), Option.map_some]

end Search

section Root

/-- The search terminates with a root that has its order. -/
def RootRight (q order : Nat) : Prop :=
  ∃ root, (∀ fuel, 2 ^ 64 ≤ fuel → unity_root fuel q order = some (.ok root)) ∧ root < q ∧
    orderOf (root : ZMod q) = order

/-- What is left of the least primitive root as an int is not a square. -/
def Narrow (q : Nat) : Prop := ∀ g, LeastRoot q g → ¬IsSquare ((wordOf g : Nat) : ZMod q)

theorem wordOf_bmod (value : Int) : wordOf (value.bmod (2 ^ 32)) = wordOf value := by
  rw [wordOf, wordOf, Int.bmod_bmod]

/-- A nonnegative int keeps its value. -/
theorem wordOf_small {value : Nat} (small : value < 2 ^ 31) : wordOf value = value := by
  have kept : (value : Int).bmod (2 ^ 32) = value := by
    rw [Int.bmod_eq_of_le] <;> omega
  rw [wordOf, kept]
  omega

/-- A least primitive root that fits an int has its order as a root of unity. -/
theorem narrow_of_small (prime : q.Prime) (odd : q ≠ 2)
    (small : ∀ g, LeastRoot q g → g < 2 ^ 31) : Narrow q := by
  have isPrime : Fact q.Prime := ⟨prime⟩
  have large := large_prime prime odd
  have even := even_phi prime odd
  intro g least square
  rw [wordOf_small (small g least)] at square
  have order := least.1.2
  have nonzero : (g : ZMod q) ≠ 0 := by
    intro zero
    have one := pow_orderOf_eq_one (g : ZMod q)
    rw [order, zero, zero_pow (by omega)] at one
    exact zero_ne_one one
  have half := (ZMod.euler_criterion q nonzero).mp square
  have divides := orderOf_dvd_of_pow_eq_one half
  rw [order] at divides
  have bound := Nat.le_of_dvd (by omega) divides
  omega

/-- The least primitive root of a prime that fits an int fits it too. -/
theorem narrow_of_lt (prime : q.Prime) (odd : q ≠ 2) (small : q < 2 ^ 31) : Narrow q := by
  obtain ⟨other, otherLeast, below⟩ := exists_leastRoot prime odd
  apply narrow_of_small prime odd
  intro g least
  rw [least.unique otherLeast]
  exact below.trans small

/-- A derived root is canonical. -/
theorem unity_root_lt {fuel order root : Nat} (large : 1 < q)
    (returns : unity_root fuel q order = some (.ok root)) : root < q := by
  unfold unity_root at returns
  split at returns
  · cases found : generator fuel q with
    | none =>
        rw [found] at returns
        cases returns
    | some result =>
        rw [found, Option.map_some] at returns
        dsimp only at returns
        split_ifs at returns
        · cases returns
        · cases returns
          exact modpow_lt large _ _
        · cases returns
  · cases returns

/-- The root of a prime has its order if and only if the int is not a square. -/
theorem unity_root_right_iff (prime : q.Prime) (odd : q ≠ 2) (word : q < 2 ^ 64) {k : Nat}
    (congruent : q % 2 ^ (k + 1) = 1) : RootRight q (2 ^ (k + 1)) ↔ Narrow q := by
  have isPrime : Fact q.Prime := ⟨prime⟩
  have large := large_prime prime odd
  obtain ⟨g, least, -⟩ := exists_leastRoot prime odd
  have split := Nat.div_add_mod q (2 ^ (k + 1))
  rw [congruent] at split
  set c := q / 2 ^ (k + 1) with c_def
  have whole : c * 2 ^ (k + 1) = q - 1 := by
    rw [Nat.mul_comm]
    omega
  have half : c * 2 ^ k = q / 2 := by
    have double : c * 2 ^ (k + 1) = 2 * (c * 2 ^ k) := by ring
    have even := even_phi prime odd
    omega
  have positive : c ≠ 0 := by
    intro zero
    rw [zero, Nat.zero_mul] at whole
    omega
  set root := modpow (wordOf g) c q with root_def
  have below : root < q := modpow_lt (by omega) _ _
  have cast : (root : ZMod q) = ((wordOf g : Nat) : ZMod q) ^ c := modpow_cast _ _ _
  have power : (root : ZMod q) ^ 2 ^ k = ((wordOf g : Nat) : ZMod q) ^ (q / 2) := by
    rw [cast, ← pow_mul, half]
  have same : Narrow q ↔ ¬IsSquare ((wordOf g : Nat) : ZMod q) := by
    constructor
    · exact fun narrow => narrow g least
    · intro notSquare other otherLeast
      rwa [otherLeast.unique least]
  rw [same]
  have value (fuel : Nat) (enough : 2 ^ 64 ≤ fuel) : unity_root fuel q (2 ^ (k + 1)) =
      some (if wordOf g = 0 then .error (.assertion "g != 0")
        else if modpow root (2 ^ (k + 1)) q = 1 then .ok root
        else .error (.assertion "modpow(res, order, q) == 1")) := by
    rw [unity_root, if_pos congruent, generator_spec prime odd word least enough, Option.map_some,
      wordOf_bmod]
  constructor
  · rintro ⟨result, returns, -, order⟩ square
    have done := (value (2 ^ 64) le_rfl).symm.trans (returns (2 ^ 64) le_rfl)
    have same : result = root := by
      split_ifs at done
      · cases done
      · exact (Except.ok.inj (Option.some.inj done)).symm
      · cases done
    rw [same] at order
    have shorter : (root : ZMod q) ^ 2 ^ k = 1 := by
      rw [power]
      by_cases nothing : ((wordOf g : Nat) : ZMod q) = 0
      · have rootZero : (root : ZMod q) = 0 := by rw [cast, nothing, zero_pow positive]
        have whole := pow_orderOf_eq_one (root : ZMod q)
        rw [order, rootZero, zero_pow (Nat.two_pow_pos _).ne'] at whole
        exact absurd whole zero_ne_one
      · exact (ZMod.euler_criterion q nothing).mp square
    have bound := Nat.le_of_dvd (Nat.two_pow_pos k) (orderOf_dvd_of_pow_eq_one shorter)
    rw [order, pow_succ] at bound
    have two := Nat.two_pow_pos k
    omega
  · intro notSquare
    have nonzero : ((wordOf g : Nat) : ZMod q) ≠ 0 := by
      intro zero
      rw [zero] at notSquare
      exact notSquare IsSquare.zero
    have nonzeroWord : wordOf g ≠ 0 := by
      intro zero
      rw [zero, Nat.cast_zero] at nonzero
      exact nonzero rfl
    have longer : (root : ZMod q) ^ 2 ^ (k + 1) = 1 := by
      rw [cast, ← pow_mul, whole, ZMod.pow_card_sub_one_eq_one nonzero]
    have shorter : ¬(root : ZMod q) ^ 2 ^ k = 1 := by
      rw [power]
      exact fun one => notSquare ((ZMod.euler_criterion q nonzero).mpr one)
    have unit : modpow root (2 ^ (k + 1)) q = 1 := (modpow_eq_one_iff (by omega) _ _).mpr longer
    refine ⟨root, fun fuel enough => ?_, below, orderOf_eq_prime_pow shorter longer⟩
    rw [value fuel enough, if_neg nonzeroWord, if_pos unit]

end Root

end Fideslib.Twiddles
