/-
This file proves that the tables of one prime are filled without a failed check.
-/

import Fideslib.Twiddles.Tables

namespace Fideslib.Twiddles

open Fideslib.Modular
open Registry (LimbType)
open Registry.Placement (convert wordBytes)
open BitReversal (reverse)

/-- The tables of the powers are twice as long as the others. -/
def capacity (N : Nat) (table : Table) : Nat :=
  if table = .psi_no ∨ table = .inv_psi_no then 2 * N else N

/-- The tables have their lengths and hold the powers of the root and of its inverse. -/
structure Ready (p root inv_root N : Nat) (tables : Tables) : Prop where
  lengths : ∀ table, (tables table).length = capacity N table
  power : ∀ j < 2 * N, (tables .psi_no).words j = some (root ^ j % p)
  inverse : ∀ j < 2 * N, (tables .inv_psi_no).words j = some (inv_root ^ j % p)

section Loops

variable {p root inv_root N : Nat} {type : LimbType} {start tables : Tables}

theorem Ready.read_power (ready : Ready p root inv_root N tables) {j : Nat} (below : j < 2 * N) :
    tables.read .psi_no j = .ok (root ^ j % p) :=
  read_ok (by rw [ready.lengths]; exact below) (ready.power j below)

theorem Ready.read_inverse (ready : Ready p root inv_root N tables) {j : Nat}
    (below : j < 2 * N) : tables.read .inv_psi_no j = .ok (inv_root ^ j % p) :=
  read_ok (by rw [ready.lengths]; exact below) (ready.inverse j below)

/-- The powers stay when other tables are written. -/
theorem Ready.written {first second : Table} {n : Nat} {f g : Nat → Nat}
    (ready : Ready p root inv_root N start) (written : Written start first second n f g tables)
    (apart : .psi_no ≠ first ∧ .psi_no ≠ second) (other : .inv_psi_no ≠ first ∧ .inv_psi_no ≠ second) :
    Ready p root inv_root N tables where
  lengths table := (written.lengths table).trans (ready.lengths table)
  power j below := by
    rw [written.frame _ apart.1 apart.2]
    exact ready.power j below
  inverse j below := by
    rw [written.frame _ other.1 other.2]
    exact ready.inverse j below

section Reversed

variable {logN : Nat} (narrow : type = .U32 → p < 2 ^ 32) (large : 2 < p)
  (half : (root : ZMod p) ^ 2 ^ logN = -1) (inverseHalf : (inv_root : ZMod p) ^ 2 ^ logN = -1)
  (ready : Ready p root inv_root (2 ^ logN) start)

include narrow large half inverseHalf ready

theorem reverseStep_returns {j : Nat} (below : j < 2 ^ logN)
    (written : Written start .psi .inv_psi j (fun j => root ^ reverse logN j % p)
      (fun j => inv_root ^ reverse logN j % p) tables) :
    ∃ next, reverseStep p type logN tables j = .ok next ∧
      Written start .psi .inv_psi (j + 1) (fun j => root ^ reverse logN j % p)
        (fun j => inv_root ^ reverse logN j % p) next := by
  have now := ready.written written (by decide) (by decide)
  have place : reverse logN j < 2 * 2 ^ logN := by
    have small := BitReversal.reverse_lt logN j
    omega
  have stored (x : Nat) : convert type (x ^ reverse logN j % p) = x ^ reverse logN j % p :=
    convert_canonical narrow (Nat.mod_lt _ (by omega))
  have next := written.next type (by decide) _ _ (stored root) (stored inv_root)
  refine ⟨_, ?_, next⟩
  have entry := read_ok (by rw [next.lengths, ready.lengths]; exact below)
    (next.firstWords j (Nat.lt_succ_self j))
  have inverse := read_ok (by rw [next.lengths, ready.lengths]; exact below)
    (next.secondWords j (Nat.lt_succ_self j))
  simp only [reverseStep, bit_reverse_eq, now.read_power place, bind, Except.bind]
  rw [write_ok (by rw [now.lengths]; exact below)]
  simp only
  rw [read_set_other (by decide), now.read_inverse place]
  simp only
  rw [write_ok (by rw [set_length, now.lengths]; exact below)]
  simp only [entry, inverse, checkEntry_ok large half below, checkEntry_ok large inverseHalf below]
  rfl

theorem fillReversed_returns : ∃ last, fillReversed (2 ^ logN) p type logN start = .ok last ∧
    Written start .psi .inv_psi (2 ^ logN) (fun j => root ^ reverse logN j % p)
      (fun j => inv_root ^ reverse logN j % p) last :=
  CountedLoop.range_returns
    (fun j => Written start .psi .inv_psi j (fun j => root ^ reverse logN j % p)
      fun j => inv_root ^ reverse logN j % p) (2 ^ logN)
    (fun _ below _ written =>
      reverseStep_returns narrow large half inverseHalf ready below written) Written.zero

end Reversed

/-- The exponent of an entry of the middle tables is its row times its reversed column. -/
def middleExponent (auxWidth i : Nat) : Nat :=
  i / 2 ^ auxWidth * reverse auxWidth (i % 2 ^ auxWidth)

theorem middleExponent_place {auxWidth j k : Nat} (column : k < 2 ^ auxWidth) :
    middleExponent auxWidth (j * 2 ^ auxWidth + k) = j * reverse auxWidth k := by
  have row : (j * 2 ^ auxWidth + k) / 2 ^ auxWidth = j := by
    rw [Nat.mul_comm, Nat.mul_add_div (Nat.two_pow_pos auxWidth), Nat.div_eq_of_lt column,
      Nat.add_zero]
  rw [middleExponent, row, Nat.mul_add_mod', Nat.mod_eq_of_lt column]

theorem middleExponent_lt {auxWidth N j k : Nat} (row : j < N / 2 ^ auxWidth) :
    j * reverse auxWidth k < 2 * N ∧ (k < 2 ^ auxWidth → j * 2 ^ auxWidth + k < N) := by
  have whole : (j + 1) * 2 ^ auxWidth ≤ N :=
    (Nat.mul_le_mul_right _ row).trans (Nat.div_mul_le_self N _)
  rw [Nat.add_one_mul] at whole
  have positive := Nat.two_pow_pos auxWidth
  have product : j * reverse auxWidth k ≤ j * 2 ^ auxWidth :=
    Nat.mul_le_mul_left j (BitReversal.reverse_lt auxWidth k).le
  omega

section Middle

variable (narrow : type = .U32 → p < 2 ^ 32) (positive : 0 < p) (N_inv : Nat)
  (ready : Ready p root inv_root N start)

include narrow positive ready

theorem middleStep_returns {auxWidth j k : Nat} (row : j < N / 2 ^ auxWidth)
    (column : k < 2 ^ auxWidth)
    (written : Written start .psi_middle_scale .inv_psi_middle_scale (j * 2 ^ auxWidth + k)
      (fun i => root ^ middleExponent auxWidth i % p)
      (fun i => inv_root ^ middleExponent auxWidth i % p * N_inv % p) tables) :
    ∃ next, middleStep p type N_inv auxWidth j tables k = .ok next ∧
      Written start .psi_middle_scale .inv_psi_middle_scale (j * 2 ^ auxWidth + (k + 1))
        (fun i => root ^ middleExponent auxWidth i % p)
        (fun i => inv_root ^ middleExponent auxWidth i % p * N_inv % p) next := by
  have now := ready.written written (by decide) (by decide)
  obtain ⟨exponent, place⟩ := middleExponent_lt (k := k) row
  have entry := place column
  have power : convert type (root ^ (j * reverse auxWidth k) % p) =
      root ^ middleExponent auxWidth (j * 2 ^ auxWidth + k) % p := by
    rw [middleExponent_place column, convert_canonical narrow (Nat.mod_lt _ positive)]
  have inverse : convert type (modprod (inv_root ^ (j * reverse auxWidth k) % p) N_inv p) =
      inv_root ^ middleExponent auxWidth (j * 2 ^ auxWidth + k) % p * N_inv % p := by
    rw [middleExponent_place column, modprod, convert_canonical narrow (Nat.mod_lt _ positive)]
  refine ⟨_, ?_, written.next type (by decide) _ _ power inverse⟩
  simp only [middleStep, bit_reverse_eq, Nat.one_shiftLeft, now.read_power exponent, bind,
    Except.bind]
  rw [write_ok (by rw [now.lengths]; exact entry)]
  simp only
  rw [read_set_other (by decide), now.read_inverse exponent]
  simp only
  rw [write_ok (by rw [set_length, now.lengths]; exact entry)]

theorem fillMiddle_returns (auxWidth : Nat) :
    ∃ last, fillMiddle N p type N_inv auxWidth start = .ok last ∧
      Written start .psi_middle_scale .inv_psi_middle_scale (N / 2 ^ auxWidth * 2 ^ auxWidth)
        (fun i => root ^ middleExponent auxWidth i % p)
        (fun i => inv_root ^ middleExponent auxWidth i % p * N_inv % p) last := by
  rw [fillMiddle, Nat.one_shiftLeft]
  refine CountedLoop.range_returns (fun j => Written start .psi_middle_scale
    .inv_psi_middle_scale (j * 2 ^ auxWidth) (fun i => root ^ middleExponent auxWidth i % p)
    fun i => inv_root ^ middleExponent auxWidth i % p * N_inv % p) _ (fun j row tables written => ?_)
    (by rw [Nat.zero_mul]; exact Written.zero)
  rw [Nat.add_one_mul]
  exact CountedLoop.range_returns (fun k => Written start .psi_middle_scale
    .inv_psi_middle_scale (j * 2 ^ auxWidth + k) (fun i => root ^ middleExponent auxWidth i % p)
    fun i => inv_root ^ middleExponent auxWidth i % p * N_inv % p) _
    (fun k column tables written =>
      middleStep_returns narrow positive N_inv ready row column written) written

end Middle

section Scaled

/-- The powers of the inverse are scaled up to a place, and the other tables stay. -/
structure Scaled (p inv_root N : Nat) (start : Tables) (j : Nat) (tables : Tables) : Prop where
  frame : ∀ table, table ≠ .inv_psi_no → tables table = start table
  lengths : ∀ table, (tables table).length = capacity N table
  rest : ∀ i, j ≤ i → i < 2 * N → (tables .inv_psi_no).words i = some (inv_root ^ i % p)

theorem scaleStep_returns (type : LimbType) (N_inv : Nat) {j : Nat} (below : j < 2 * N)
    (scaled : Scaled p inv_root N start j tables) :
    ∃ next, scaleStep p type N_inv tables j = .ok next ∧ Scaled p inv_root N start (j + 1) next := by
  have room : j < (tables .inv_psi_no).length := by
    rw [scaled.lengths]
    exact below
  refine ⟨tables.set type .inv_psi_no j (modprod (inv_root ^ j % p) N_inv p), ?_, ?_⟩
  · simp only [scaleStep, read_ok room (scaled.rest j le_rfl below), bind, Except.bind]
    exact write_ok room
  · exact {
      frame := fun table other => (set_other other).trans (scaled.frame table other)
      lengths := fun table => (set_length _ _ _ _ _).trans (scaled.lengths table)
      rest := fun i above inside =>
        (set_words_other (by omega)).trans (scaled.rest i (by omega) inside) }

/-- The last loop over the powers changes the powers of the inverse only. -/
theorem scaleInverse_returns (type : LimbType) (N_inv : Nat)
    (ready : Ready p root inv_root N start) :
    ∃ last, scaleInverse N p type N_inv start = .ok last ∧
      Scaled p inv_root N start (2 * N) last :=
  CountedLoop.range_returns (Scaled p inv_root N start) (2 * N)
    (fun _ below _ scaled => scaleStep_returns type N_inv below scaled)
    ⟨fun _ _ => rfl, ready.lengths, fun i _ below => ready.inverse i below⟩

/-- The scaled powers of the inverse are canonical. -/
theorem scaleInverse_words {last : Tables} (narrow : type = .U32 → p < 2 ^ 32) (positive : 0 < p)
    (N_inv : Nat) (ready : Ready p root inv_root N start)
    (returns : scaleInverse N p type N_inv start = .ok last) :
    ∀ j < 2 * N, (last .inv_psi_no).words j = some (inv_root ^ j % p * N_inv % p) := by
  obtain ⟨own, done, -, words⟩ := CountedLoop.range_returns
    (fun j tables => Scaled p inv_root N start j tables ∧
      ∀ i < j, (tables .inv_psi_no).words i = some (inv_root ^ i % p * N_inv % p)) (2 * N)
    (fun j below tables both => by
      obtain ⟨scaled, words⟩ := both
      have room : j < (tables .inv_psi_no).length := by
        rw [scaled.lengths]
        exact below
      have step : scaleStep p type N_inv tables j =
          .ok (tables.set type .inv_psi_no j (modprod (inv_root ^ j % p) N_inv p)) := by
        simp only [scaleStep, read_ok room (scaled.rest j le_rfl below), bind, Except.bind]
        exact write_ok room
      obtain ⟨next, again, after⟩ := scaleStep_returns type N_inv below scaled
      obtain rfl := Except.ok.inj (step.symm.trans again)
      refine ⟨_, step, after, fun i earlier => ?_⟩
      rcases Nat.lt_succ_iff_lt_or_eq.mp earlier with before | rfl
      · rw [set_words_other before.ne, words i before]
      · rw [set_words_self, modprod, convert_canonical narrow (Nat.mod_lt _ positive)])
    ⟨⟨fun _ _ => rfl, ready.lengths, fun i _ below => ready.inverse i below⟩,
      fun i early => absurd early (Nat.not_lt_zero i)⟩
  obtain rfl : own = last := Except.ok.inj (done.symm.trans returns)
  exact words

end Scaled

section Shoup

variable (type) (nonzero : p ≠ 0) {f g : Nat → Nat}
  (lengths : ∀ table, (start table).length = capacity N table)
  (power : ∀ j < N, (start .psi).words j = some (f j))
  (inverse : ∀ j < N, (start .inv_psi).words j = some (g j))

include nonzero lengths power inverse

theorem shoupStep_returns {j : Nat} (below : j < N)
    (written : Written start .psi_shoup .inv_psi_shoup j
      (fun j => convert type (shoup p type (f j))) (fun j => convert type (shoup p type (g j)))
      tables) :
    ∃ next, shoupStep p type tables j = .ok next ∧
      Written start .psi_shoup .inv_psi_shoup (j + 1)
        (fun j => convert type (shoup p type (f j)))
        (fun j => convert type (shoup p type (g j))) next := by
  have room (table : Table) : j < (tables table).length := by
    rw [written.lengths, lengths, capacity]
    split <;> omega
  have entry : tables.read .psi j = .ok (f j) := read_ok (room .psi) (by
    rw [written.frame .psi (by decide) (by decide)]
    exact power j below)
  have other : tables.read .inv_psi j = .ok (g j) := read_ok (room .inv_psi) (by
    rw [written.frame .inv_psi (by decide) (by decide)]
    exact inverse j below)
  refine ⟨_, ?_, written.next type (by decide) _ _ rfl rfl⟩
  simp only [shoupStep, check, if_pos nonzero, ite_self, entry, bind, Except.bind]
  rw [write_ok (room .psi_shoup)]
  simp only
  rw [read_set_other (by decide), other]
  simp only
  rw [write_ok (by rw [set_length]; exact room .inv_psi_shoup)]

/-- The quotients are computed from the reversed tables. -/
theorem fillShoup_returns : ∃ last, fillShoup N p type start = .ok last ∧
    Written start .psi_shoup .inv_psi_shoup N (fun j => convert type (shoup p type (f j)))
      (fun j => convert type (shoup p type (g j))) last :=
  CountedLoop.range_returns
    (fun j => Written start .psi_shoup .inv_psi_shoup j
      (fun j => convert type (shoup p type (f j))) fun j => convert type (shoup p type (g j))) N
    (fun _ below _ written =>
      shoupStep_returns type nonzero lengths power inverse below written) Written.zero

end Shoup

end Loops

end Fideslib.Twiddles
