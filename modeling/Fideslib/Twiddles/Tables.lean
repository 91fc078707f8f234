/-
This file models the tables of powers of the root of one prime and the writes to them.
-/

import Fideslib.Registry.Placement
import Fideslib.Twiddles.Generator
import Fideslib.Library.BitReversal
import Fideslib.Library.Loop

namespace Fideslib.Twiddles

open Fideslib.Modular
open Registry (LimbType)
open Registry.Placement (convert wordBytes)

/-- The lowest bit of a number goes to the highest place. -/
def bit_reverse (a w : Nat) : Nat :=
  (List.range w).foldl (fun res i => res ||| ((a >>> i) &&& 1) <<< (w - i - 1)) 0

def modprod (a b p : Nat) : Nat := a * b % p

/-- A prime has these tables on the host. -/
inductive Table where
  | psi
  | inv_psi
  | psi_no
  | inv_psi_no
  | psi_middle_scale
  | inv_psi_middle_scale
  | psi_shoup
  | inv_psi_shoup
deriving DecidableEq, Repr

/-- A word of a buffer has no value before it is written. -/
structure Buffer where
  length : Nat
  words : Nat → Option Nat

abbrev Tables := Table → Buffer

/-- A request above the size of the largest object fails, so that no word can be reached. -/
def malloc (type : LimbType) (bytes : Int) : Buffer where
  length := if wordOf bytes < 2 ^ 63 then wordOf bytes / wordBytes type else 0
  words := fun _ => none

/-- The bytes of a table are an int, and two tables are twice as long. -/
def allocate (type : LimbType) (N : Nat) : Tables :=
  let bytes := ((N * wordBytes type : Nat) : Int).bmod (2 ^ 32)
  fun table => malloc type (if table = .psi_no ∨ table = .inv_psi_no then 2 * bytes else bytes)

def Tables.read (tables : Tables) (table : Table) (i : Nat) : Except Failure Nat :=
  if i < (tables table).length then
    match (tables table).words i with
    | some word => .ok word
    | none => .error .unset
  else .error .outOfRange

/-- A narrow table keeps the low half of a word. -/
def Tables.set (type : LimbType) (tables : Tables) (table : Table) (i word : Nat) : Tables :=
  Function.update tables table { tables table with
    words := Function.update (tables table).words i (some (convert type word)) }

def Tables.write (type : LimbType) (tables : Tables) (table : Table) (i word : Nat) :
    Except Failure Tables :=
  if i < (tables table).length then .ok (tables.set type table i word) else .error .outOfRange

def check (condition : Prop) [Decidable condition] (text : String) : Except Failure Unit :=
  if condition then .ok () else .error (.assertion text)

section Setup

variable (N p : Nat) (type : LimbType) (root inv_root N_inv : Nat)

/-- The root and its inverse have order two times N. -/
def checkRoots : Except Failure Unit := do
  check (modpow root (wordOf (2 * N)) p = 1) "modpow(root, 2 * N, p) == 1"
  check (modpow root N p = p - 1) "modpow(root, N, p) == p - 1"
  check (modpow inv_root (wordOf (2 * N)) p = 1) "modpow(inv_root, 2 * N, p) == 1"
  check (modpow inv_root N p = p - 1) "modpow(inv_root, N, p) == p - 1"
  check (modprod root inv_root p = 1) "modprod(root, inv_root, p) == 1"

/-- Each power is the product of the root and the power before. -/
def powerStep (tables : Tables) (j : Nat) : Except Failure Tables := do
  let power ← tables.read .psi_no (j - 1)
  let tables ← tables.write type .psi_no j (modprod root power p)
  let inverse ← tables.read .inv_psi_no (j - 1)
  tables.write type .inv_psi_no j (modprod inv_root inverse p)

def fillPowers (tables : Tables) : Except Failure Tables := do
  let tables ← tables.write type .psi_no 0 1
  let tables ← tables.write type .inv_psi_no 0 1
  (List.range' 1 (2 * N - 1)).foldlM (powerStep p type root inv_root) tables

/-- The order of an entry follows from the number of bits of its index. -/
def checkEntry (j word : Nat) : Except Failure Unit := do
  let pow := 1 <<< j.size
  check (modpow word (2 * pow) p = 1) "modpow(psi[j], 2 * pow, p) == 1"
  if 0 < j then check (modpow word pow p = p - 1) "modpow(psi[j], pow, p) == p - 1"

def reverseStep (logN : Nat) (tables : Tables) (j : Nat) : Except Failure Tables := do
  let power ← tables.read .psi_no (bit_reverse j logN)
  let tables ← tables.write type .psi j power
  let inverse ← tables.read .inv_psi_no (bit_reverse j logN)
  let tables ← tables.write type .inv_psi j inverse
  let entry ← tables.read .psi j
  checkEntry p j entry
  let entry ← tables.read .inv_psi j
  checkEntry p j entry
  return tables

/-- The powers are stored in the order of the reversed indices. -/
def fillReversed (logN : Nat) (tables : Tables) : Except Failure Tables :=
  (List.range N).foldlM (reverseStep p type logN) tables

def middleStep (auxWidth j : Nat) (tables : Tables) (k : Nat) : Except Failure Tables := do
  let power ← tables.read .psi_no (j * bit_reverse k auxWidth)
  let tables ← tables.write type .psi_middle_scale (j * (1 <<< auxWidth) + k) power
  let inverse ← tables.read .inv_psi_no (j * bit_reverse k auxWidth)
  tables.write type .inv_psi_middle_scale (j * (1 <<< auxWidth) + k) (modprod inverse N_inv p)

/-- The middle tables have a row for each block and a column for each place in it. -/
def fillMiddle (auxWidth : Nat) (tables : Tables) : Except Failure Tables :=
  (List.range (N / (1 <<< auxWidth))).foldlM (fun tables j =>
    (List.range (1 <<< auxWidth)).foldlM (middleStep p type N_inv auxWidth j) tables) tables

def scaleStep (tables : Tables) (j : Nat) : Except Failure Tables := do
  let inverse ← tables.read .inv_psi_no j
  tables.write type .inv_psi_no j (modprod inverse N_inv p)

def scaleInverse (tables : Tables) : Except Failure Tables :=
  (List.range (2 * N)).foldlM (scaleStep p type N_inv) tables

/-- A quotient by the prime goes with each entry. -/
def shoup : Nat → Nat :=
  match type with
  | .U32 => fun word => (word <<< 1) % 2 ^ 32 * 2 ^ 31 / p
  | .U64 => fun word => shoup_precomp word p

def shoupStep (tables : Tables) (j : Nat) : Except Failure Tables := do
  if type = .U64 then check (p ≠ 0) "primes[i] != 0"
  let power ← tables.read .psi j
  let tables ← tables.write type .psi_shoup j (shoup p type power)
  let inverse ← tables.read .inv_psi j
  tables.write type .inv_psi_shoup j (shoup p type inverse)

def fillShoup (tables : Tables) : Except Failure Tables :=
  (List.range N).foldlM (shoupStep p type) tables

/-- The tables of one prime are filled one after the other. -/
def fillTables : Except Failure Tables := do
  let logN := N.size - 1
  let auxWidth := (logN + 1) / 2
  checkRoots N p root inv_root
  let tables ← fillPowers N p type root inv_root (allocate type N)
  let tables ← fillReversed N p type logN tables
  let tables ← fillMiddle N p type N_inv auxWidth tables
  let tables ← scaleInverse N p type N_inv tables
  fillShoup N p type tables

/-- The root comes from the source context, or it is derived from the generator. -/
def rootOf (fuel : Nat) : Option Nat → Option (Except Failure Nat)
  | some root => some (.ok root)
  | none => unity_root fuel p (wordOf (2 * N))

def setup (fuel : Nat) (raw : Option Nat) : Option (Except Failure (Nat × Tables)) :=
  (rootOf N p fuel raw).map fun derived => do
    let root ← derived
    let tables ← fillTables N p type root (modinv root p) (modinv N p)
    return (root, tables)

end Setup

end Fideslib.Twiddles

namespace Fideslib.Twiddles

open Fideslib.Modular
open Registry (LimbType)
open Registry.Placement (convert wordBytes)

section Reversal

/-- One bit is moved to a place. -/
theorem moved_bit (a i s place : Nat) :
    (((a >>> i) &&& 1) <<< s).testBit place = (decide (place = s) && a.testBit i) := by
  rw [Nat.testBit_shiftLeft, Nat.testBit_and, Nat.testBit_shiftRight]
  by_cases same : place = s
  · subst same
    simp
  · by_cases above : s ≤ place
    · have zero : (1 : Nat).testBit (place - s) = false := by
        rw [Bool.eq_false_iff, Ne, Nat.testBit_one_eq_true_iff_self_eq_zero]
        omega
      simp only [zero, same, Bool.and_false, decide_false, Bool.false_and]
    · simp only [above, same, decide_false, Bool.false_and]

/-- After some bits the highest places are set. -/
theorem bit_reverse_steps (a w place : Nat) {count : Nat} (inside : count ≤ w) :
    ((List.range count).foldl (fun res i => res ||| ((a >>> i) &&& 1) <<< (w - i - 1)) 0).testBit
      place = (decide (w - count ≤ place ∧ place < w) && a.testBit (w - 1 - place)) := by
  induction count with
  | zero =>
      have outside : ¬(w - 0 ≤ place ∧ place < w) := by omega
      simp only [List.range_zero, List.foldl_nil, Nat.zero_testBit, outside, decide_false,
        Bool.false_and]
  | succ count inductionHypothesis =>
      rw [List.range_succ, List.foldl_append, List.foldl_cons, List.foldl_nil, Nat.testBit_or,
        inductionHypothesis (by omega), moved_bit]
      by_cases here : place = w - count - 1
      · have before : ¬(w - count ≤ place ∧ place < w) := by omega
        have after : w - (count + 1) ≤ place ∧ place < w := by omega
        have mirror : w - 1 - place = count := by omega
        rw [decide_eq_false before, decide_eq_true after, decide_eq_true here, mirror,
          Bool.false_and, Bool.false_or]
      · have same : (w - (count + 1) ≤ place ∧ place < w) ↔ (w - count ≤ place ∧ place < w) := by
          omega
        simp only [same, here, decide_false, Bool.false_and, Bool.or_false]

theorem bit_reverse_eq (a w : Nat) : bit_reverse a w = BitReversal.reverse w a := by
  apply Nat.eq_of_testBit_eq
  intro place
  rw [bit_reverse, bit_reverse_steps a w place le_rfl, BitReversal.reverse_testBit]
  have range : (w - w ≤ place ∧ place < w) ↔ place < w := by omega
  simp only [range]

end Reversal

section Access

variable {type : LimbType} {tables start : Tables} {table other : Table} {i word n : Nat}

theorem read_ok (inside : i < (tables table).length) (there : (tables table).words i = some word) :
    tables.read table i = .ok word := by
  rw [Tables.read, if_pos inside, there]

theorem write_ok (inside : i < (tables table).length) :
    tables.write type table i word = .ok (tables.set type table i word) :=
  if_pos inside

theorem set_length (tables : Tables) (table other : Table) (i word : Nat) :
    ((tables.set type table i word) other).length = (tables other).length := by
  by_cases same : other = table
  · subst same
    rw [Tables.set, Function.update_self]
  · rw [Tables.set, Function.update_of_ne same]

theorem set_other (different : other ≠ table) :
    (tables.set type table i word) other = tables other :=
  Function.update_of_ne different _ _

/-- A write to one table is not seen in another. -/
theorem read_set_other (different : other ≠ table) (place : Nat) :
    (tables.set type table i word).read other place = tables.read other place := by
  rw [Tables.read, Tables.read, set_other different]

theorem set_words_self : ((tables.set type table i word) table).words i =
    some (convert type word) := by
  simp only [Tables.set, Function.update_self]

theorem set_words_other {place : Nat} (different : place ≠ i) :
    ((tables.set type table i word) table).words place = (tables table).words place := by
  simp only [Tables.set, Function.update_self, Function.update_of_ne different]

/-- The first words of two tables are written, and the other tables stay. -/
structure Written (start : Tables) (first second : Table) (n : Nat) (f g : Nat → Nat)
    (tables : Tables) : Prop where
  frame : ∀ table, table ≠ first → table ≠ second → tables table = start table
  lengths : ∀ table, (tables table).length = (start table).length
  firstWords : ∀ j < n, (tables first).words j = some (f j)
  secondWords : ∀ j < n, (tables second).words j = some (g j)

variable {first second : Table} {f g : Nat → Nat}

theorem Written.zero : Written start first second 0 f g start :=
  ⟨fun _ _ _ => rfl, fun _ => rfl, fun j below => absurd below (Nat.not_lt_zero j),
    fun j below => absurd below (Nat.not_lt_zero j)⟩

/-- The next words of both tables are written. -/
theorem Written.next (type : LimbType) (written : Written start first second n f g tables)
    (different : first ≠ second) (left right : Nat) (leftWord : convert type left = f n)
    (rightWord : convert type right = g n) :
    Written start first second (n + 1) f g
      ((tables.set type first n left).set type second n right) where
  frame := by
    intro table notFirst notSecond
    rw [set_other notSecond, set_other notFirst, written.frame table notFirst notSecond]
  lengths := by
    intro table
    rw [set_length, set_length, written.lengths]
  firstWords := by
    intro j below
    rw [set_other different]
    by_cases last : j = n
    · rw [last, set_words_self, leftWord]
    · rw [set_words_other last]
      exact written.firstWords j (by omega)
  secondWords := by
    intro j below
    by_cases last : j = n
    · rw [last, set_words_self, rightWord]
    · rw [set_words_other last, set_other different.symm]
      exact written.secondWords j (by omega)

end Access

section Powers

variable {p : Nat} {type : LimbType}

/-- A canonical word keeps its value in a table. -/
theorem convert_canonical (narrow : type = .U32 → p < 2 ^ 32) {word : Nat} (small : word < p) :
    convert type word = word := by
  cases type with
  | U32 => exact Nat.mod_eq_of_lt (small.trans (narrow rfl))
  | U64 => rfl

theorem modprod_power (x j : Nat) : modprod x (x ^ j % p) p = x ^ (j + 1) % p := by
  rw [modprod, Nat.mul_mod, Nat.mod_mod, ← Nat.mul_mod, ← pow_succ']

section Steps

variable (narrow : type = .U32 → p < 2 ^ 32)

include narrow

/-- One round writes the next power of the root and of its inverse. -/
theorem powerStep_returns (positive : 0 < p) (root inv_root : Nat) {start tables : Tables} {N j : Nat}
    (room : (start .psi_no).length = 2 * N ∧ (start .inv_psi_no).length = 2 * N) (above : 1 ≤ j)
    (below : j < 2 * N) (written : Written start .psi_no .inv_psi_no j (fun j => root ^ j % p)
      (fun j => inv_root ^ j % p) tables) :
    ∃ next, powerStep p type root inv_root tables j = .ok next ∧
      Written start .psi_no .inv_psi_no (j + 1) (fun j => root ^ j % p)
        (fun j => inv_root ^ j % p) next := by
  have lengths := written.lengths
  have residue (x : Nat) : modprod x (x ^ (j - 1) % p) p = x ^ j % p := by
    rw [modprod_power, Nat.sub_add_cancel above]
  have stored (x : Nat) : convert type (modprod x (x ^ (j - 1) % p) p) = x ^ j % p := by
    rw [residue, convert_canonical narrow (Nat.mod_lt _ positive)]
  have power : tables.read .psi_no (j - 1) = .ok (root ^ (j - 1) % p) :=
    read_ok (by rw [lengths, room.1]; omega) (written.firstWords _ (by omega))
  have inverse : tables.read .inv_psi_no (j - 1) = .ok (inv_root ^ (j - 1) % p) :=
    read_ok (by rw [lengths, room.2]; omega) (written.secondWords _ (by omega))
  refine ⟨_, ?_, written.next type (by decide) _ _ (stored root) (stored inv_root)⟩
  simp only [powerStep, power, bind, Except.bind]
  rw [write_ok (by rw [lengths, room.1]; omega)]
  simp only
  rw [read_set_other (by decide), inverse]
  simp only
  rw [write_ok (by rw [set_length, lengths, room.2]; omega)]

/-- The loop leaves the powers below two times N. -/
theorem fillPowers_returns {N : Nat} (positive : 0 < N) (large : 1 < p) (root inv_root : Nat)
    {start : Tables}
    (room : (start .psi_no).length = 2 * N ∧ (start .inv_psi_no).length = 2 * N) :
    ∃ last, fillPowers N p type root inv_root start = .ok last ∧
      Written start .psi_no .inv_psi_no (2 * N) (fun j => root ^ j % p)
        (fun j => inv_root ^ j % p) last := by
  have one (x : Nat) : convert type 1 = x ^ 0 % p := by
    rw [convert_canonical narrow large, pow_zero, Nat.mod_eq_of_lt large]
  have first : Written start .psi_no .inv_psi_no 1 (fun j => root ^ j % p)
      (fun j => inv_root ^ j % p) ((start.set type .psi_no 0 1).set type .inv_psi_no 0 1) :=
    Written.zero.next type (by decide) _ _ (one root) (one inv_root)
  obtain ⟨last, done, written⟩ := CountedLoop.range'_returns
    (fun j => Written start .psi_no .inv_psi_no j (fun j => root ^ j % p)
      fun j => inv_root ^ j % p) 1 (2 * N - 1)
    (fun j above below tables written =>
      powerStep_returns narrow (by omega) root inv_root room above (by omega) written) first
  refine ⟨last, ?_, by rwa [show 1 + (2 * N - 1) = 2 * N by omega] at written⟩
  simp only [fillPowers, bind, Except.bind]
  rw [write_ok (by rw [room.1]; omega)]
  simp only
  rw [write_ok (by rw [set_length, room.2]; omega)]
  exact done

end Steps

/-- The reversal of a number with this many bits is an odd multiple of the lowest place. -/
theorem reverse_odd {width j : Nat} (positive : 0 < j) (small : j < 2 ^ width) :
    ∃ m, BitReversal.reverse width j * 2 ^ j.size = (2 * m + 1) * 2 ^ width := by
  have bits : j.size ≤ width := Nat.size_le.mpr small
  have some_ : 0 < j.size := Nat.size_pos.mpr positive
  obtain ⟨high, rfl⟩ := Nat.exists_eq_add_of_le bits
  have top : j.testBit (j.size - 1) = true := by
    apply Nat.testBit_of_two_pow_le_and_two_pow_add_one_gt
    · exact Nat.lt_size.mp (by omega)
    · rw [Nat.sub_add_cancel some_]
      exact Nat.lt_size_self j
  have low : (BitReversal.reverse j.size j).testBit 0 = true := by
    rw [BitReversal.reverse_testBit, decide_eq_true some_, Nat.sub_zero, top, Bool.and_self]
  have odd : BitReversal.reverse j.size j % 2 = 1 := by
    simpa only [Nat.testBit_zero, decide_eq_true_eq] using low
  refine ⟨BitReversal.reverse j.size j / 2, ?_⟩
  rw [BitReversal.reverse_widen j.size high (Nat.lt_size_self j),
    show 2 * (BitReversal.reverse j.size j / 2) + 1 = BitReversal.reverse j.size j by omega, pow_add]
  ring

section Order

variable (large : 2 < p) {x logN : Nat} (half : (x : ZMod p) ^ 2 ^ logN = -1)

include large

theorem modpow_eq_top_iff (x e : Nat) : modpow x e p = p - 1 ↔ (x : ZMod p) ^ e = -1 := by
  rw [← word_eq_iff (modpow_lt (by omega) x e) (show p - 1 < p by omega), modpow_cast,
    Nat.cast_sub (by omega), ZMod.natCast_self, Nat.cast_one, zero_sub]

include half

omit large in
theorem full_power : (x : ZMod p) ^ (2 * 2 ^ logN) = 1 := by
  rw [Nat.mul_comm, pow_mul, half, neg_one_sq]

/-- Every entry of the reversed tables passes its check. -/
theorem checkEntry_ok {j : Nat} (small : j < 2 ^ logN) :
    checkEntry p j (x ^ BitReversal.reverse logN j % p) = .ok () := by
  have cast : ((x ^ BitReversal.reverse logN j % p : Nat) : ZMod p) =
      (x : ZMod p) ^ BitReversal.reverse logN j := by
    rw [ZMod.natCast_mod, Nat.cast_pow]
  have one : modpow (x ^ BitReversal.reverse logN j % p) (2 * 1 <<< j.size) p = 1 := by
    rw [modpow_eq_one_iff (by omega), cast, Nat.one_shiftLeft, ← pow_mul]
    rcases Nat.eq_zero_or_pos j with rfl | positive
    · rw [BitReversal.reverse_zero, Nat.zero_mul, pow_zero]
    · obtain ⟨m, odd⟩ := reverse_odd positive small
      have double : BitReversal.reverse logN j * (2 * 2 ^ j.size) =
          2 * 2 ^ logN * (2 * m + 1) := by
        calc BitReversal.reverse logN j * (2 * 2 ^ j.size)
            = 2 * (BitReversal.reverse logN j * 2 ^ j.size) := by ring
          _ = 2 * ((2 * m + 1) * 2 ^ logN) := by rw [odd]
          _ = 2 * 2 ^ logN * (2 * m + 1) := by ring
      rw [double, pow_mul, full_power half, one_pow]
  have top (positive : 0 < j) :
      modpow (x ^ BitReversal.reverse logN j % p) (1 <<< j.size) p = p - 1 := by
    obtain ⟨m, odd⟩ := reverse_odd positive small
    rw [modpow_eq_top_iff large, cast, Nat.one_shiftLeft, ← pow_mul, odd, Nat.mul_comm, pow_mul,
      half]
    exact Odd.neg_one_pow ⟨m, rfl⟩
  simp only [checkEntry, check, one, if_true, bind, Except.bind]
  split
  · rename_i positive
    rw [if_pos (top positive)]
  · rfl

end Order

end Powers

end Fideslib.Twiddles
