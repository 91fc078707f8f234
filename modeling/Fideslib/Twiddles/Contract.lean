/-
This file proves when the roots of the primes and the tables of their powers are right.
-/

import Fideslib.Twiddles.TableLoops

namespace Fideslib.Twiddles

open Fideslib.Modular
open Registry (LimbType)
open Registry.Placement (convert wordBytes)
open BitReversal (reverse)

/-- Each table has its entry at every index. -/
structure Right (p logN root : Nat) (tables : Tables) : Prop where
  psi : ∀ j < 2 ^ logN, tables.read .psi j = .ok (root ^ reverse logN j % p)
  inv_psi : ∀ j < 2 ^ logN, ∃ word, tables.read .inv_psi j = .ok word ∧ word < p ∧
    word * (root ^ reverse logN j % p) % p = 1
  psi_middle_scale : ∀ j < 2 ^ logN / 2 ^ ((logN + 1) / 2), ∀ k < 2 ^ ((logN + 1) / 2),
    tables.read .psi_middle_scale (j * 2 ^ ((logN + 1) / 2) + k) =
      .ok (root ^ (j * reverse ((logN + 1) / 2) k) % p)
  inv_psi_middle_scale : ∀ j < 2 ^ logN / 2 ^ ((logN + 1) / 2), ∀ k < 2 ^ ((logN + 1) / 2),
    ∃ word, tables.read .inv_psi_middle_scale (j * 2 ^ ((logN + 1) / 2) + k) = .ok word ∧
      word < p ∧ word * 2 ^ logN * (root ^ (j * reverse ((logN + 1) / 2) k) % p) % p = 1

/-- The inverses are powers of the inverse root, each reversed entry has its quotient, and the
tables in order are twice as long. -/
structure Prepared (p logN root : Nat) (type : LimbType) (tables : Tables) : Prop where
  inv_psi : ∀ j < 2 ^ logN, tables.read .inv_psi j = .ok (modinv root p ^ reverse logN j % p)
  psi_shoup : ∀ j < 2 ^ logN, tables.read .psi_shoup j =
    .ok (convert type (shoup p type (root ^ reverse logN j % p)))
  inv_psi_shoup : ∀ j < 2 ^ logN, tables.read .inv_psi_shoup j =
    .ok (convert type (shoup p type (modinv root p ^ reverse logN j % p)))
  psi_no : ∀ j < 2 * 2 ^ logN, tables.read .psi_no j = .ok (root ^ j % p)
  inv_psi_no : ∀ j < 2 * 2 ^ logN,
    tables.read .inv_psi_no j = .ok (modinv root p ^ j % p * modinv (2 ^ logN) p % p)

section Room

variable {type : LimbType} {N : Nat}

theorem wordBytes_cases (type : LimbType) : wordBytes type = 4 ∨ wordBytes type = 8 := by
  cases type with
  | U32 => exact Or.inl rfl
  | U64 => exact Or.inr rfl

/-- Short tables get all their words. -/
theorem allocate_length (fits : 2 * N * wordBytes type < 2 ^ 31) (table : Table) :
    (allocate type N table).length = capacity N table := by
  have positive : 0 < wordBytes type := by
    rcases wordBytes_cases type with four | eight <;> omega
  have double : 2 * N * wordBytes type = 2 * (N * wordBytes type) := by ring
  have bytes : ((N * wordBytes type : Nat) : Int).bmod (2 ^ 32) = (N * wordBytes type : Nat) := by
    rw [Int.bmod_eq_of_le] <;> omega
  have twice : wordOf ((2 * (N * wordBytes type) : Nat) : Int) = 2 * (N * wordBytes type) :=
    wordOf_small (by omega)
  rw [Nat.cast_mul, Nat.cast_ofNat] at twice
  have once : wordOf ((N * wordBytes type : Nat) : Int) = N * wordBytes type :=
    wordOf_small (by omega)
  simp only [allocate, malloc, bytes, capacity]
  split
  · rw [twice, if_pos (by omega), ← double, Nat.mul_div_cancel _ positive]
  · rw [once, if_pos (by omega), Nat.mul_div_cancel _ positive]

/-- Tables of two gibibytes and more get no word. -/
theorem allocate_fails {logN : Nat} (int : logN < 31)
    (large : 2 ^ 31 ≤ 2 * 2 ^ logN * wordBytes type) :
    (allocate type (2 ^ logN) .psi_no).length = 0 := by
  have exponents : 27 ≤ logN := by
    by_contra small
    have power : 2 ^ logN ≤ 2 ^ 26 := Nat.pow_le_pow_right two_pos (by omega)
    rcases wordBytes_cases type with four | eight
    · rw [four] at large
      omega
    · rw [eight] at large
      omega
  cases type with
  | U32 =>
      interval_cases logN
      · exact absurd large (by decide)
      all_goals decide
  | U64 => interval_cases logN <;> decide

end Room

section Fill

theorem ok_bind {Value Next : Type} (value : Value) (next : Value → Except Failure Next) :
    (Except.ok value >>= next) = next value :=
  rfl

theorem error_bind {Value Next : Type} (failure : Failure) (next : Value → Except Failure Next) :
    (Except.error failure >>= next) = .error failure :=
  rfl

variable {p logN root : Nat} {type : LimbType}

/-- A product of canonical words is one if and only if it is one as a residue. -/
theorem mod_eq_one_iff (large : 1 < p) (value : Nat) : value % p = 1 ↔ (value : ZMod p) = 1 := by
  rw [← word_eq_iff (Nat.mod_lt value (by omega)) large, ZMod.natCast_mod, Nat.cast_one]

theorem check_ok {condition : Prop} [Decidable condition] (holds : condition) (text : String) :
    check condition text = .ok () :=
  if_pos holds

theorem fits_small (fits : 2 * 2 ^ logN * wordBytes type < 2 ^ 31) : 2 * 2 ^ logN < 2 ^ 31 := by
  have positive : 0 < wordBytes type := by
    rcases wordBytes_cases type with four | eight <;> omega
  exact (Nat.le_mul_of_pos_right _ positive).trans_lt fits

/-- The powers are ready, and the reversed and the middle tables are filled. -/
structure Middle (p logN root : Nat) (tables : Tables) : Prop
    extends Ready p root (modinv root p) (2 ^ logN) tables where
  psi : ∀ j < 2 ^ logN, (tables .psi).words j = some (root ^ reverse logN j % p)
  inv_psi : ∀ j < 2 ^ logN, (tables .inv_psi).words j = some (modinv root p ^ reverse logN j % p)
  psi_middle_scale : ∀ i < 2 ^ logN,
    (tables .psi_middle_scale).words i = some (root ^ middleExponent ((logN + 1) / 2) i % p)
  inv_psi_middle_scale : ∀ i < 2 ^ logN, (tables .inv_psi_middle_scale).words i =
    some (modinv root p ^ middleExponent ((logN + 1) / 2) i % p * modinv (2 ^ logN) p % p)

section Prime

variable (prime : p.Prime) (odd : p ≠ 2) (half : (root : ZMod p) ^ 2 ^ logN = -1)

include prime half

/-- The inverse of the root has the order of the root. -/
theorem inverse_root : ((modinv root p : Nat) : ZMod p) * root = 1 ∧
    ((modinv root p : Nat) : ZMod p) ^ 2 ^ logN = -1 := by
  have isPrime : Fact p.Prime := ⟨prime⟩
  have nonzero : (root : ZMod p) ≠ 0 := by
    intro zero
    rw [zero, zero_pow (Nat.two_pow_pos logN).ne'] at half
    exact one_ne_zero (neg_eq_zero.mp half.symm)
  have cancel := modinv_cast root nonzero
  refine ⟨cancel, ?_⟩
  have power : ((modinv root p : Nat) : ZMod p) ^ 2 ^ logN * (root : ZMod p) ^ 2 ^ logN = 1 := by
    rw [← mul_pow, cancel, one_pow]
  rw [half, mul_neg, mul_one] at power
  exact neg_eq_iff_eq_neg.mp power

include odd

theorem checkRoots_ok (small : 2 * 2 ^ logN < 2 ^ 31) :
    checkRoots (2 ^ logN) p root (modinv root p) = .ok () := by
  have large := large_prime prime odd
  obtain ⟨cancel, inverse⟩ := inverse_root prime half
  have double : wordOf (2 * ((2 ^ logN : Nat) : Int)) = 2 * 2 ^ logN := by
    have word : wordOf ((2 * 2 ^ logN : Nat) : Int) = 2 * 2 ^ logN := wordOf_small small
    rwa [Nat.cast_mul, Nat.cast_ofNat] at word
  have product : modprod root (modinv root p) p = 1 := by
    rw [modprod, mod_eq_one_iff (by omega), Nat.cast_mul, mul_comm]
    exact cancel
  have one := (modpow_eq_one_iff (show 1 < p by omega) root _).mpr (full_power half)
  have inverseOne :=
    (modpow_eq_one_iff (show 1 < p by omega) (modinv root p) _).mpr (full_power inverse)
  have top := (modpow_eq_top_iff (show 2 < p by omega) root _).mpr half
  have inverseTop := (modpow_eq_top_iff (show 2 < p by omega) (modinv root p) _).mpr inverse
  rw [checkRoots, double, check_ok one, check_ok top, check_ok inverseOne, check_ok inverseTop,
    check_ok product]
  rfl

/-- The middle entries of the inverse cancel those of the root and the dimension. -/
theorem scaled_inverse (e : Nat) :
    modinv root p ^ e % p * modinv (2 ^ logN) p % p * 2 ^ logN * (root ^ e % p) % p = 1 := by
  have isPrime : Fact p.Prime := ⟨prime⟩
  have large := large_prime prime odd
  have two : ((2 ^ logN : Nat) : ZMod p) ≠ 0 := by
    rw [Ne, ZMod.natCast_eq_zero_iff]
    intro divides
    exact odd ((Nat.prime_dvd_prime_iff_eq prime Nat.prime_two).mp (prime.dvd_of_dvd_pow divides))
  have count := modinv_cast (2 ^ logN) two
  rw [mod_eq_one_iff (by omega)]
  push_cast [ZMod.natCast_mod] at count ⊢
  calc ((modinv root p : Nat) : ZMod p) ^ e * (modinv (2 ^ logN) p : Nat) * 2 ^ logN *
        (root : ZMod p) ^ e
      = (((modinv root p : Nat) : ZMod p) * root) ^ e *
          (((modinv (2 ^ logN) p : Nat) : ZMod p) * 2 ^ logN) := by ring
    _ = 1 := by rw [(inverse_root prime half).1, count, one_pow, one_mul]

omit odd in
theorem power_inverse (large : 1 < p) (e : Nat) :
    modinv root p ^ e % p * (root ^ e % p) % p = 1 := by
  rw [mod_eq_one_iff large]
  push_cast [ZMod.natCast_mod]
  rw [← mul_pow, (inverse_root prime half).1, one_pow]

/-- The first three loops succeed. -/
theorem fillMiddle_filled (narrow : type = .U32 → p < 2 ^ 32)
    (fits : 2 * 2 ^ logN * wordBytes type < 2 ^ 31) :
    ∃ middle, Middle p logN root middle ∧ ∀ next : Tables → Except Failure Tables,
      (do
        let tables ← fillPowers (2 ^ logN) p type root (modinv root p) (allocate type (2 ^ logN))
        let tables ← fillReversed (2 ^ logN) p type logN tables
        let tables ← fillMiddle (2 ^ logN) p type (modinv (2 ^ logN) p) ((logN + 1) / 2) tables
        next tables) = next middle := by
  have large := large_prime prime odd
  have lengths := allocate_length fits
  obtain ⟨powers, powersDone, powersWritten⟩ := fillPowers_returns narrow
    (Nat.two_pow_pos logN) (show 1 < p by omega) root (modinv root p)
    ⟨lengths .psi_no, lengths .inv_psi_no⟩
  have ready : Ready p root (modinv root p) (2 ^ logN) powers :=
    ⟨fun table => (powersWritten.lengths table).trans (lengths table), powersWritten.firstWords,
      powersWritten.secondWords⟩
  obtain ⟨reversed, reversedDone, reversedWritten⟩ :=
    fillReversed_returns narrow (by omega) half (inverse_root prime half).2 ready
  have afterReversed := ready.written reversedWritten (by decide) (by decide)
  obtain ⟨middle, middleDone, middleWritten⟩ := fillMiddle_returns narrow (show 0 < p by omega)
    (modinv (2 ^ logN) p) afterReversed ((logN + 1) / 2)
  have whole : 2 ^ logN / 2 ^ ((logN + 1) / 2) * 2 ^ ((logN + 1) / 2) = 2 ^ logN :=
    Nat.div_mul_cancel (pow_dvd_pow 2 (by omega))
  rw [whole] at middleWritten
  refine ⟨middle, ⟨afterReversed.written middleWritten (by decide) (by decide), ?_, ?_,
    middleWritten.firstWords, middleWritten.secondWords⟩, fun next => ?_⟩
  · rw [middleWritten.frame .psi (by decide) (by decide)]
    exact reversedWritten.firstWords
  · rw [middleWritten.frame .inv_psi (by decide) (by decide)]
    exact reversedWritten.secondWords
  · rw [powersDone, ok_bind, reversedDone, ok_bind, middleDone, ok_bind]

/-- Tables that fit are filled with the powers of the root and their quotients. -/
theorem fillTables_filled (narrow : type = .U32 → p < 2 ^ 32)
    (fits : 2 * 2 ^ logN * wordBytes type < 2 ^ 31) :
    ∃ tables, fillTables (2 ^ logN) p type root (modinv root p) (modinv (2 ^ logN) p) =
      .ok tables ∧ Right p logN root tables ∧ Prepared p logN root type tables := by
  have large := large_prime prime odd
  have bits : (2 ^ logN).size - 1 = logN := by rw [Nat.size_pow, Nat.add_sub_cancel]
  obtain ⟨middle, words, started⟩ := fillMiddle_filled prime odd half narrow fits
  obtain ⟨scaled, scaledDone, scaledWritten⟩ :=
    scaleInverse_returns type (modinv (2 ^ logN) p) words.toReady
  obtain ⟨last, done, written⟩ := fillShoup_returns type (show p ≠ 0 by omega)
    scaledWritten.lengths
    (by rw [scaledWritten.frame .psi (by decide)]; exact words.psi)
    (by rw [scaledWritten.frame .inv_psi (by decide)]; exact words.inv_psi)
  have stays (table : Table) (first : table ≠ .psi_shoup) (second : table ≠ .inv_psi_shoup)
      (third : table ≠ .inv_psi_no) : last table = middle table :=
    (written.frame table first second).trans (scaledWritten.frame table third)
  have found {table : Table} {i word : Nat} (below : i < 2 ^ logN)
      (there : (last table).words i = some word) : last.read table i = .ok word := by
    refine read_ok ?_ there
    rw [written.lengths, scaledWritten.lengths, capacity]
    split <;> omega
  have inversePower (j : Nat) (below : j < 2 ^ logN) :
      last.read .inv_psi j = .ok (modinv root p ^ reverse logN j % p) := by
    apply found below
    rw [stays .inv_psi (by decide) (by decide) (by decide)]
    exact words.inv_psi j below
  have room {table : Table} (double : table = .psi_no ∨ table = .inv_psi_no) {i : Nat}
      (below : i < 2 * 2 ^ logN) : i < (last table).length := by
    rw [written.lengths, scaledWritten.lengths, capacity, if_pos double]
    exact below
  refine ⟨last, ?_, ⟨?_, ?_, ?_, ?_⟩, inversePower,
    fun j below => found below (written.firstWords j below),
    fun j below => found below (written.secondWords j below), ?_, ?_⟩
  · rw [fillTables, bits, checkRoots_ok prime odd half (fits_small fits), ok_bind, started,
      scaledDone, ok_bind, done]
  · intro j below
    apply found below
    rw [stays .psi (by decide) (by decide) (by decide)]
    exact words.psi j below
  · intro j below
    exact ⟨_, inversePower j below, Nat.mod_lt _ (by omega), power_inverse prime half (by omega) _⟩
  · intro j row k column
    have place := (middleExponent_lt row).2 column
    apply found place
    rw [stays .psi_middle_scale (by decide) (by decide) (by decide),
      words.psi_middle_scale _ place, middleExponent_place column]
  · intro j row k column
    have place := (middleExponent_lt row).2 column
    refine ⟨_, found place ?_, Nat.mod_lt _ (by omega), scaled_inverse prime odd half _⟩
    rw [stays .inv_psi_middle_scale (by decide) (by decide) (by decide),
      words.inv_psi_middle_scale _ place, middleExponent_place column]
  · intro j below
    apply read_ok (room (.inl rfl) below)
    rw [stays .psi_no (by decide) (by decide) (by decide)]
    exact words.power j below
  · intro j below
    apply read_ok (room (.inr rfl) below)
    rw [written.frame .inv_psi_no (by decide) (by decide)]
    exact scaleInverse_words narrow (by omega) _ words.toReady scaledDone j below

theorem fillTables_right (narrow : type = .U32 → p < 2 ^ 32)
    (fits : 2 * 2 ^ logN * wordBytes type < 2 ^ 31) :
    ∃ tables, fillTables (2 ^ logN) p type root (modinv root p) (modinv (2 ^ logN) p) =
      .ok tables ∧ Right p logN root tables := by
  obtain ⟨tables, filled, right, -⟩ := fillTables_filled prime odd half narrow fits
  exact ⟨tables, filled, right⟩

end Prime

/-- Tables that do not fit are not filled. -/
theorem fillTables_fails (int : logN < 31) (large : 2 ^ 31 ≤ 2 * 2 ^ logN * wordBytes type)
    (inv_root N_inv : Nat) (tables : Tables) :
    fillTables (2 ^ logN) p type root inv_root N_inv ≠ .ok tables := by
  have none := allocate_fails int large
  have blocked : (allocate type (2 ^ logN)).write type .psi_no 0 1 = .error .outOfRange :=
    if_neg (by rw [none]; exact Nat.lt_irrefl 0)
  have powers : fillPowers (2 ^ logN) p type root inv_root (allocate type (2 ^ logN)) =
      .error .outOfRange := by
    rw [fillPowers, blocked]
    rfl
  intro done
  rw [fillTables] at done
  cases checked : checkRoots (2 ^ logN) p root inv_root with
  | error failure =>
      rw [checked, error_bind] at done
      cases done
  | ok _ =>
      rw [checked, ok_bind, powers, error_bind] at done
      cases done

end Fill

/-- The setup returns a root of the order of the transform and the tables of its powers. -/
def TablesRight (p logN : Nat) (type : LimbType) (raw : Option Nat) : Prop :=
  ∃ root tables,
    (∀ fuel, 2 ^ 64 ≤ fuel → setup (2 ^ logN) p type fuel raw = some (.ok (root, tables))) ∧
      orderOf (root : ZMod p) = 2 ^ (logN + 1) ∧ Right p logN root tables

section Setup

variable {q logN : Nat} {type : LimbType} {raw : Option Nat}

/-- A setup that returns has derived its root and filled its tables. -/
theorem setup_ok {fuel root : Nat} {tables : Tables}
    (returns : setup (2 ^ logN) q type fuel raw = some (.ok (root, tables))) :
    rootOf (2 ^ logN) q fuel raw = some (.ok root) ∧
      fillTables (2 ^ logN) q type root (modinv root q) (modinv (2 ^ logN) q) = .ok tables := by
  unfold setup at returns
  obtain ⟨derived, found, result⟩ := Option.map_eq_some_iff.mp returns
  cases derived with
  | error failure => cases result
  | ok own =>
      rw [ok_bind] at result
      cases filled : fillTables (2 ^ logN) q type own (modinv own q) (modinv (2 ^ logN) q) with
      | error failure =>
          rw [filled, error_bind] at result
          cases result
      | ok own_tables =>
          rw [filled, ok_bind] at result
          cases result
          exact ⟨found, filled⟩

/-- A root that passes its checks has minus one at half of its order. -/
theorem half_of_filled (large : 2 < q) {root inv_root N_inv : Nat} {tables : Tables}
    (filled : fillTables (2 ^ logN) q type root inv_root N_inv = .ok tables) :
    (root : ZMod q) ^ 2 ^ logN = -1 := by
  rw [← modpow_eq_top_iff large]
  by_contra wrong
  have stops : checkRoots (2 ^ logN) q root inv_root ≠ .ok () := by
    rw [checkRoots]
    by_cases full : modpow root (wordOf (2 * ((2 ^ logN : Nat) : Int))) q = 1
    · rw [check_ok full, ok_bind, check, if_neg wrong]
      intro same
      cases same
    · rw [check, if_neg full]
      intro same
      cases same
  rw [fillTables] at filled
  cases checked : checkRoots (2 ^ logN) q root inv_root with
  | error failure =>
      rw [checked, error_bind] at filled
      cases filled
  | ok value => exact stops checked

/-- A setup that returns has a root of the right order and right tables. -/
theorem setup_filled (prime : q.Prime) (odd : q ≠ 2) (int : logN < 31)
    (narrow : type = .U32 → q < 2 ^ 32) {fuel root : Nat} {tables : Tables}
    (returns : setup (2 ^ logN) q type fuel raw = some (.ok (root, tables))) :
    (root : ZMod q) ^ 2 ^ logN = -1 ∧ Right q logN root tables ∧
      Prepared q logN root type tables := by
  have large := large_prime prime odd
  obtain ⟨-, filled⟩ := setup_ok returns
  have half := half_of_filled (by omega) filled
  have fits : 2 * 2 ^ logN * wordBytes type < 2 ^ 31 := by
    by_contra tooLarge
    exact fillTables_fails int (by omega) _ _ _ filled
  obtain ⟨own, again, right, prepared⟩ := fillTables_filled prime odd half narrow fits
  obtain rfl : own = tables := Except.ok.inj (again.symm.trans filled)
  exact ⟨half, right, prepared⟩

/-- A root of the order of the transform has minus one at half of it. -/
theorem half_of_order (prime : q.Prime) {root : Nat}
    (order : orderOf (root : ZMod q) = 2 ^ (logN + 1)) : (root : ZMod q) ^ 2 ^ logN = -1 := by
  have isPrime : Fact q.Prime := ⟨prime⟩
  have square : (root : ZMod q) ^ 2 ^ logN * (root : ZMod q) ^ 2 ^ logN = 1 := by
    rw [← pow_add, ← Nat.two_mul, ← pow_succ', ← order, pow_orderOf_eq_one]
  rcases mul_self_eq_one_iff.mp square with one | top
  · have bound := Nat.le_of_dvd (Nat.two_pow_pos logN) (orderOf_dvd_of_pow_eq_one one)
    have positive := Nat.two_pow_pos logN
    rw [order, pow_succ] at bound
    omega
  · exact top

theorem order_of_half (large : 2 < q) {root : Nat} (half : (root : ZMod q) ^ 2 ^ logN = -1) :
    orderOf (root : ZMod q) = 2 ^ (logN + 1) := by
  have two : Fact (2 < q) := ⟨large⟩
  apply orderOf_eq_prime_pow
  · rw [half]
    exact ZMod.neg_one_ne_one
  · rw [pow_succ, pow_mul, half, neg_one_sq]

theorem double_word (small : 2 * 2 ^ logN < 2 ^ 31) :
    wordOf (2 * ((2 ^ logN : Nat) : Int)) = 2 ^ (logN + 1) := by
  have word : wordOf ((2 * 2 ^ logN : Nat) : Int) = 2 * 2 ^ logN := wordOf_small small
  rwa [Nat.cast_mul, Nat.cast_ofNat, ← pow_succ'] at word

/-- The tables of a prime are right if and only if they fit an int and its root is right. -/
theorem tables_right_iff (prime : q.Prime) (odd : q ≠ 2) (word : q < 2 ^ 64)
    (congruent : q % 2 ^ (logN + 1) = 1) (int : logN < 31) (narrow : type = .U32 → q < 2 ^ 32)
    (given : ∀ root ∈ raw, root ^ 2 ^ logN % q = q - 1) :
    TablesRight q logN type raw ↔
      2 * 2 ^ logN * wordBytes type < 2 ^ 31 ∧ (raw = none → Narrow q) := by
  have large := large_prime prime odd
  constructor
  · rintro ⟨root, tables, returns, order, -⟩
    obtain ⟨found, filled⟩ := setup_ok (returns (2 ^ 64) le_rfl)
    have fits : 2 * 2 ^ logN * wordBytes type < 2 ^ 31 := by
      by_contra tooLarge
      exact fillTables_fails int (by omega) _ _ _ filled
    refine ⟨fits, ?_⟩
    rintro rfl
    have derived (fuel : Nat) (enough : 2 ^ 64 ≤ fuel) :
        unity_root fuel q (2 ^ (logN + 1)) = some (.ok root) := by
      have own := (setup_ok (returns fuel enough)).1
      rwa [rootOf, double_word (fits_small fits)] at own
    exact (unity_root_right_iff prime odd word congruent).mp
      ⟨root, derived, unity_root_lt (by omega) (derived (2 ^ 64) le_rfl), order⟩
  · rintro ⟨fits, derivable⟩
    obtain ⟨root, derived, order⟩ : ∃ root,
        (∀ fuel, 2 ^ 64 ≤ fuel → rootOf (2 ^ logN) q fuel raw = some (.ok root)) ∧
          orderOf (root : ZMod q) = 2 ^ (logN + 1) := by
      cases raw with
      | none =>
          obtain ⟨root, derived, -, order⟩ :=
            (unity_root_right_iff prime odd word congruent).mpr (derivable rfl)
          refine ⟨root, fun fuel enough => ?_, order⟩
          rw [rootOf, double_word (fits_small fits)]
          exact derived fuel enough
      | some root =>
          have half := congrArg (Nat.cast : Nat → ZMod q) (given root rfl)
          rw [ZMod.natCast_mod, Nat.cast_pow, Nat.cast_sub (by omega), ZMod.natCast_self,
            Nat.cast_one, zero_sub] at half
          exact ⟨root, fun _ _ => rfl, order_of_half (by omega) half⟩
    obtain ⟨tables, filled, right⟩ :=
      fillTables_right prime odd (half_of_order prime order) narrow fits
    refine ⟨root, tables, fun fuel enough => ?_, order, right⟩
    rw [setup, derived fuel enough, Option.map_some, ok_bind, filled, ok_bind]
    rfl

end Setup

/-- The roots of an order of two or more and the tables are right exactly if no int overflows on the
way to them. -/
theorem roots_and_tables_right_iff {q logN : Nat} (prime : q.Prime) (odd : q ≠ 2)
    (word : q < 2 ^ 64) (congruent : q % 2 ^ (logN + 1) = 1) :
    (RootRight q (2 ^ (logN + 1)) ↔ Narrow q) ∧
      (logN < 31 → ∀ (type : LimbType) (raw : Option Nat), (type = .U32 → q < 2 ^ 32) →
        (∀ root ∈ raw, root ^ 2 ^ logN % q = q - 1) →
        (TablesRight q logN type raw ↔
          2 * 2 ^ logN * wordBytes type < 2 ^ 31 ∧ (raw = none → Narrow q))) :=
  ⟨unity_root_right_iff prime odd word congruent, fun int _ _ narrow given =>
    tables_right_iff prime odd word congruent int narrow given⟩

/-- The root of order four of seventeen and its tables are right. -/
theorem roots_and_tables_right_seventeen :
    RootRight 17 (2 ^ (1 + 1)) ∧ TablesRight 17 1 .U64 none := by
  have prime : Nat.Prime 17 := by norm_num
  have narrow : Narrow 17 := narrow_of_lt prime (by decide) (by decide)
  obtain ⟨root, tables⟩ :=
    @roots_and_tables_right_iff 17 1 prime (by decide) (by decide) (by decide)
  exact ⟨root.mpr narrow, (tables (by decide) .U64 none (by decide) (by simp)).mpr
    ⟨by decide, fun _ => narrow⟩⟩

section Certificate

/-- The word is squared this often modulo the prime. -/
def squares (p : Nat) : Nat → Nat → Nat
  | 0, x => x
  | count + 1, x => squares p count (x * x % p)

theorem squares_spec {p x : Nat} (small : x < p) (count : Nat) :
    squares p count x < p ∧ ((squares p count x : Nat) : ZMod p) = (x : ZMod p) ^ 2 ^ count := by
  induction count generalizing x with
  | zero => exact ⟨small, by rw [squares, pow_zero, pow_one]⟩
  | succ count inductionHypothesis =>
      obtain ⟨below, power⟩ := inductionHypothesis (Nat.mod_lt (x * x) (by omega : 0 < p))
      refine ⟨below, ?_⟩
      rw [squares, power, ZMod.natCast_mod, Nat.cast_mul, ← pow_two, ← pow_mul, ← pow_succ']

theorem squares_eq_one_iff {p x : Nat} (large : 1 < p) (small : x < p) (count : Nat) :
    (x : ZMod p) ^ 2 ^ count = 1 ↔ squares p count x = 1 := by
  obtain ⟨below, power⟩ := squares_spec small count
  rw [← power, ← word_eq_iff below large, Nat.cast_one]

/-- Five generates the units modulo this number, so it is prime. -/
theorem prime_3221225473 : Nat.Prime 3221225473 := by
  have cube : ((5 : Nat) : ZMod 3221225473) ^ 3 = (125 : Nat) := by
    rw [← Nat.cast_pow, show 5 ^ 3 = 125 by rfl]
  apply lucas_primality 3221225473 ((5 : Nat) : ZMod 3221225473)
  · rw [show 3221225473 - 1 = 3 * 2 ^ 30 by rfl, pow_mul, cube,
      squares_eq_one_iff (by decide) (by decide)]
    decide
  · intro l prime divides
    have factors : l ∣ 3 * 2 ^ 30 := divides
    rcases prime.dvd_mul.mp factors with three | two
    · rw [(Nat.prime_dvd_prime_iff_eq prime Nat.prime_three).mp three,
        show (3221225473 - 1) / 3 = 2 ^ 30 by rfl, Ne,
        squares_eq_one_iff (by decide) (by decide)]
      decide
    · rw [(Nat.prime_dvd_prime_iff_eq prime Nat.prime_two).mp (prime.dvd_of_dvd_pow two),
        show (3221225473 - 1) / 2 = 3 * 2 ^ 29 by rfl, Ne, pow_mul, cube,
        squares_eq_one_iff (by decide) (by decide)]
      decide

end Certificate

/-- With this ring dimension the tables of a prime are not filled, whatever its root is. -/
theorem tables_overflow : Nat.Prime 3221225473 ∧ 3221225473 % 2 ^ (27 + 1) = 1 ∧
    ∀ raw, ¬TablesRight 3221225473 27 .U64 raw := by
  refine ⟨prime_3221225473, by decide, ?_⟩
  rintro raw ⟨root, tables, returns, -⟩
  exact fillTables_fails (by decide) (by decide) _ _ _ (setup_ok (returns (2 ^ 64) le_rfl)).2

end Fideslib.Twiddles
