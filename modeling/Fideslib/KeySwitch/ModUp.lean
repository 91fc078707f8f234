/-
This file translates the mod-up of a digit and proves what its conversion tables hold.
-/

import Fideslib.KeySwitch.Digits
import Fideslib.KeySwitch.Transform
import Fideslib.Library.Scatter

namespace Fideslib.KeySwitch

open Fideslib.Modular
open Scatter
open WordReduction (wrappingSum wrappingSum_eq wrappingSum_lt)

def MAXP : Nat := 64

def MODUPIDX_SCALE (i j k : Nat) : Nat := MAXP * MAXP * i + MAXP * j + k

/-- The digit does not enter the place of an entry. -/
def MODUPIDX_MATRIX (i _j k l : Nat) : Nat := MAXP * MAXP * i + MAXP * k + l

/-- The source context precomputes a table for each prefix of a digit and for each level. -/
structure ModUpTables where
  PartQlHatInvModq : List (List (List Nat))
  PartQlHatModp : List (List (List (List Nat)))

namespace Digits

variable {raw : RawParams} (digits : Digits raw)

/-- These are the primes outside a digit in the order of the source context. -/
def ParamsComplPartQ (level d : Nat) : List Nat :=
  (List.range (level + 1)).filter (digits.digit · ≠ d) ++ (List.range raw.K).map (raw.L + ·)

/-- These are the live primes of a digit. -/
def PartQ (d i : Nat) : Nat := raw.q (digits.start d + i)

/-- This is the product of the first primes of a digit. -/
def Q_d (size d : Nat) : Nat := ResidueSystem.product (Finset.range size) (digits.PartQ d)

def PartQlHat (size d j : Nat) : Nat :=
  ResidueSystem.cofactor (Finset.range size) (digits.PartQ d) j

/-- The source context reduces the cofactor of a live prime for each prime outside the digit. -/
def hatRow (level k j : Nat) : List Nat :=
  (digits.ParamsComplPartQ level k).map fun id =>
    digits.PartQlHat (digits.size (level + 1) k) k j % raw.prime id

def hatRows (level k : Nat) : List (List Nat) :=
  (List.range (digits.size (level + 1) k)).map (digits.hatRow level k)

def hatLevel (level : Nat) : List (List (List Nat)) :=
  (List.range (digits.num_d (level + 1))).map (digits.hatRows level)

def added_decomp (i l : Nat) : Nat :=
  if ((digits.DECOMPmeta i).map LimbRecord.id).getD 0 0 ≤ l then (digits.DECOMPmeta i).length else 0

/-- The last columns belong to the special primes, and the others step over the digit. -/
def predicted_primeid (i size l : Nat) : Nat :=
  if size - raw.K ≤ l then raw.L + raw.K + l - size else l + digits.added_decomp i l

/-- The primes of a digit follow the primes of the earlier digits. -/
def preScaleWrites (src : List (List (List Nat))) : List (Nat × Nat) :=
  blockWrites (fun k init_primeid =>
    rowWrites fun i _ j => MODUPIDX_SCALE k i (init_primeid + j)) src 0 0

/-- The rows of a level follow each other over all its digits. -/
def levelWrites (k : Nat) (src : List (List (List Nat))) : List (Nat × Nat) :=
  blockWrites (fun i input_primeid => rowWrites fun j size l =>
    MODUPIDX_MATRIX k i (input_primeid + j) (digits.predicted_primeid i size l)) src 0 0

def matrixWrites (src : List (List (List (List Nat)))) : List (Nat × Nat) :=
  src.zipIdx.flatMap fun (level, k) => digits.levelWrites k level

end Digits

namespace ModUpTables

variable (tables : ModUpTables) {raw : RawParams} (digits : Digits raw)

/-- The arrays of the host start with zeros. -/
def DecompAndModUp_pre_scale : Nat → Nat :=
  commit (Digits.preScaleWrites tables.PartQlHatInvModq) fun _ => 0

def DecompAndModUp_matrix : Nat → Nat :=
  commit (digits.matrixWrites tables.PartQlHatModp) fun _ => 0

def inverse (k i j : Nat) : Nat :=
  ((tables.PartQlHatInvModq.getD k []).getD i []).getD j 0

/-- The source context documents these facts about the conversion of its digits. -/
structure Generated : Prop where
  scale_shape : tables.PartQlHatInvModq.map (fun rows => rows.map List.length) =
    (List.range digits.dnum).map fun k =>
      (List.range (digits.DECOMPmeta k).length).map fun i => i + 1
  inverse_small : ∀ k i j, k < digits.dnum → i < (digits.DECOMPmeta k).length → j ≤ i →
    tables.inverse k i j < digits.PartQ k j
  inverse : ∀ k i j, k < digits.dnum → i < (digits.DECOMPmeta k).length → j ≤ i →
    tables.inverse k i j * digits.PartQlHat (i + 1) k j % digits.PartQ k j = 1
  hat : tables.PartQlHatModp = (List.range raw.L).map digits.hatLevel

end ModUpTables

section Kernel

variable (cc : Constants) {raw : RawParams} (digits : Digits raw) (tables : ModUpTables)
  (algo : ALGO)

/-- A thread block scales the words of the live limbs of the digit in its shared memory. -/
def DecompBuffer (d n_d_n : Nat) (a : Nat → Limb) (idx i_ : Nat) : Nat :=
  let primeid := digits.primeid_digit_from d i_
  let scale := tables.DecompAndModUp_pre_scale (MODUPIDX_SCALE d (n_d_n - 1) primeid)
  modmult algo (a i_ idx) scale (cc.primes primeid) (shoup_precomp scale (cc.primes primeid))

/-- This is a term of the wide sum for one target. -/
def DecompTerm (n d : Nat) (a : Nat → Limb) (primeid_j idx i_ : Nat) : Nat :=
  let primeid := digits.primeid_digit_from d i_
  DecompBuffer cc digits tables algo d (digits.num_primeid_digit_from d (n - 1)) a idx i_ *
    tables.DecompAndModUp_matrix digits (MODUPIDX_MATRIX (n - 1) d primeid primeid_j)

/-- The grid has whole blocks of 64 coefficients. -/
def DecompAndModUpConv (a : Nat → Limb) (n : Nat) (b : Nat → Limb) (d j_ : Nat) : Limb :=
  let n_d_n := digits.num_primeid_digit_from d (n - 1)
  let primeid_j := digits.primeid_digit_to d j_
  if j_ < digits.num_primeid_digit_to d (n - 1) ∧ (primeid_j < n ∨ cc.L ≤ primeid_j) then
    launch (cc.N / 64 * 64) (fun idx =>
      let res := wrappingSum (2 ^ 128) (DecompTerm cc digits tables algo n d a primeid_j idx) n_d_n
      modreduce res (cc.primes primeid_j)) (b j_)
  else b j_

end Kernel

end Fideslib.KeySwitch

namespace Fideslib.KeySwitch

open Intervals Scatter

namespace Digits

variable {raw : RawParams} (digits : Digits raw)

theorem start_le (d : Nat) : digits.start d ≤ raw.L := by
  have count : (List.range raw.L).countP (digits.digit · < d) ≤ (List.range raw.L).length :=
    List.countP_le_length
  rwa [← digits.start_eq, List.length_range] at count

/-- The primes of a digit are an interval. -/
theorem digit_eq_iff {i d : Nat} (inside : i < raw.L) :
    digits.digit i = d ↔
      digits.start d ≤ i ∧ i < digits.start d + (digits.DECOMPmeta d).length := by
  have below := digits.digit_lt_iff (d := d) inside
  have upto := digits.digit_lt_iff (d := d + 1) inside
  rw [digits.start_succ] at upto
  omega

/-- An initial segment of the chain holds an initial segment of a digit. -/
theorem filter_digit {d n : Nat} (inside : n ≤ raw.L) :
    (List.range n).filter (digits.digit · = d) =
      List.range' (digits.start d) (min (digits.DECOMPmeta d).length (n - digits.start d)) := by
  rw [← filter_interval]
  apply List.filter_congr
  intro i mem
  have bound : i < raw.L := (List.mem_range.mp mem).trans_le inside
  exact decide_eq_decide.mpr (digits.digit_eq_iff bound)

theorem filter_other {d n : Nat} (inside : n ≤ raw.L) :
    (List.range n).filter (digits.digit · ≠ d) =
      List.range (min (digits.start d) n) ++
        List.range' (digits.start d + (digits.DECOMPmeta d).length)
          (n - (digits.start d + (digits.DECOMPmeta d).length)) := by
  rw [← filter_outside]
  apply List.filter_congr
  intro i mem
  have bound : i < raw.L := (List.mem_range.mp mem).trans_le inside
  exact decide_eq_decide.mpr (not_congr (digits.digit_eq_iff bound))

/-- The source limbs of a digit are an interval of the chain. -/
theorem DECOMPmeta_range (d : Nat) :
    (digits.DECOMPmeta d).map LimbRecord.id =
      List.range' (digits.start d) (digits.DECOMPmeta d).length := by
  have next := digits.start_le (d + 1)
  rw [digits.start_succ] at next
  rw [digits.DECOMPmeta_id, digits.filter_digit le_rfl]
  congr 1
  omega

theorem primeid_digit_from_eq {d i : Nat} (inside : i < (digits.DECOMPmeta d).length) :
    digits.primeid_digit_from d i = digits.start d + i := by
  rw [primeid_digit_from, DECOMPmeta_range]
  simp [inside]

/-- The prefix counts of the source limbs are the numbers of live limbs. -/
theorem num_primeid_digit_from_eq (d level : Nat) :
    digits.num_primeid_digit_from d level = digits.size (level + 1) d := by
  have ids : digits.num_primeid_digit_from d level =
      ((digits.DECOMPmeta d).map LimbRecord.id).countP (fun id => id ≤ level) := by
    rw [num_primeid_digit_from, ← List.countP_eq_length_filter, List.countP_map]
    rfl
  rw [ids, DECOMPmeta_range, countP_interval, size]

/-- The live targets of a digit are the special primes and then the live primes outside it. -/
def targets (level d : Nat) : List Nat :=
  (List.range raw.K).map (raw.L + ·) ++ (List.range (level + 1)).filter (digits.digit · ≠ d)

/-- The live targets come first in the table of all targets. -/
theorem DIGITmeta_targets {level : Nat} (inside : level < raw.L) (d : Nat) :
    ∃ later, (digits.DIGITmeta d).map LimbRecord.id = digits.targets level d ++ later ∧
      ∀ id ∈ later, level < id ∧ id < raw.L := by
  obtain ⟨rest, total⟩ := Nat.exists_eq_add_of_le (show level + 1 ≤ raw.L from inside)
  refine ⟨((List.range rest).map (level + 1 + ·)).filter (digits.digit · ≠ d), ?_, ?_⟩
  · rw [digits.DIGITmeta_id, targets, List.append_assoc, ← List.filter_append, ← List.range_add,
      ← total]
  · intro id mem
    obtain ⟨offset, bound, rfl⟩ := List.mem_map.mp (List.mem_filter.mp mem).1
    have below := List.mem_range.mp bound
    omega

theorem mem_targets {level d id : Nat} :
    id ∈ digits.targets level d ↔
      (raw.L ≤ id ∧ id < raw.L + raw.K) ∨ (id ≤ level ∧ digits.digit id ≠ d) := by
  rw [targets, List.mem_append, List.mem_map, List.mem_filter]
  constructor
  · rintro (⟨k, mem, rfl⟩ | ⟨mem, other⟩)
    · have inside := List.mem_range.mp mem
      exact Or.inl ⟨by omega, by omega⟩
    · exact Or.inr ⟨Nat.le_of_lt_succ (List.mem_range.mp mem), of_decide_eq_true other⟩
  · rintro (⟨low, high⟩ | ⟨live, other⟩)
    · exact Or.inl ⟨id - raw.L, List.mem_range.mpr (by omega), by omega⟩
    · exact Or.inr ⟨List.mem_range.mpr (Nat.lt_succ_of_le live), decide_eq_true other⟩

/-- The prefix counts of the targets are the numbers of live targets. -/
theorem num_primeid_digit_to_eq {level : Nat} (inside : level < raw.L) (d : Nat) :
    digits.num_primeid_digit_to d level = (digits.targets level d).length := by
  have ids : digits.num_primeid_digit_to d level =
      ((digits.DIGITmeta d).map LimbRecord.id).countP (fun id => id ≤ level ∨ raw.L ≤ id) := by
    rw [num_primeid_digit_to, ← List.countP_eq_length_filter, List.countP_map]
    rfl
  obtain ⟨later, split, beyond⟩ := digits.DIGITmeta_targets inside d
  have all : (digits.targets level d).countP (fun id => id ≤ level ∨ raw.L ≤ id) =
      (digits.targets level d).length := by
    rw [List.countP_eq_length]
    intro id mem
    rcases digits.mem_targets.mp mem with ⟨low, high⟩ | ⟨live, other⟩
    · exact decide_eq_true (Or.inr low)
    · exact decide_eq_true (Or.inl live)
  have none_ : later.countP (fun id => id ≤ level ∨ raw.L ≤ id) = 0 := by
    rw [List.countP_eq_zero]
    intro id mem
    have bounds := beyond id mem
    simp only [decide_eq_true_eq]
    omega
  rw [ids, split, List.countP_append, all, none_, Nat.add_zero]

theorem primeid_digit_to_eq {level d j_ : Nat} (inside : level < raw.L)
    (live : j_ < (digits.targets level d).length) :
    digits.primeid_digit_to d j_ = (digits.targets level d).getD j_ 0 := by
  obtain ⟨later, split, beyond⟩ := digits.DIGITmeta_targets inside d
  rw [primeid_digit_to, split, List.getD_eq_getElem?_getD, List.getElem?_append_left live,
    ← List.getD_eq_getElem?_getD]

/-- The first prime of a digit decides where its columns step over it. -/
theorem added_decomp_eq {d l : Nat} (inside : d < digits.dnum) :
    digits.added_decomp d l =
      if digits.start d ≤ l then (digits.DECOMPmeta d).length else 0 := by
  have some_ := digits.occupied_length inside
  rw [added_decomp, DECOMPmeta_range]
  simp [some_]

/-- The predicted place of a column is its prime. -/
theorem predicted_primeid_eq {level d l id : Nat} (inside : level < raw.L)
    (live : d < digits.num_d (level + 1)) (column : (digits.ParamsComplPartQ level d)[l]? = some id) :
    digits.predicted_primeid d (digits.ParamsComplPartQ level d).length l = id := by
  have number := live.trans_le (digits.num_d_le _)
  have reached := (digits.lt_num_d_iff number).mp live
  have next := digits.start_le (d + 1)
  rw [digits.start_succ] at next
  have others := digits.filter_other (d := d) (show level + 1 ≤ raw.L from inside)
  rw [Nat.min_eq_left (Nat.le_of_lt reached)] at others
  rw [ParamsComplPartQ, others] at column ⊢
  generalize after : level + 1 - (digits.start d + (digits.DECOMPmeta d).length) = rest at *
  simp only [predicted_primeid, List.length_append, List.length_range, List.length_range',
    List.length_map, Nat.add_sub_cancel, digits.added_decomp_eq number]
  have regular : (List.range (digits.start d) ++
      List.range' (digits.start d + (digits.DECOMPmeta d).length) rest).length =
        digits.start d + rest := by
    rw [List.length_append, List.length_range, List.length_range']
  rcases Nat.lt_or_ge l (digits.start d + rest) with chain | special
  · rw [List.getElem?_append_left (by omega)] at column
    rw [if_neg (by omega)]
    rcases Nat.lt_or_ge l (digits.start d) with before | beyond
    · rw [List.getElem?_append_left (by rwa [List.length_range]), List.getElem?_range before] at column
      rw [if_neg (by omega)]
      exact Option.some.inj column
    · rw [List.getElem?_append_right (by rwa [List.length_range]), List.length_range,
        List.getElem?_range' (by omega)] at column
      rw [if_pos beyond, ← Option.some.inj column]
      omega
  · rw [List.getElem?_append_right (by omega), regular, List.getElem?_map] at column
    obtain ⟨k, found, rfl⟩ := Option.map_eq_some_iff.mp column
    obtain ⟨bound, rfl⟩ := List.getElem?_eq_some_iff.mp found
    rw [if_pos special, List.getElem_range]
    rw [List.length_range] at bound
    omega

/-- The digits before a live one are whole. -/
theorem size_before {level d e : Nat} (order : d < e) (live : e < digits.num_d (level + 1)) :
    digits.size (level + 1) d = (digits.DECOMPmeta d).length := by
  have reached := (digits.lt_num_d_iff (live.trans_le (digits.num_d_le _))).mp live
  have next := digits.start_mono (show d + 1 ≤ e from order)
  rw [digits.start_succ] at next
  rw [size]
  omega

/-- A live digit has a live prime. -/
theorem size_pos {level d : Nat} (live : d < digits.num_d (level + 1)) :
    0 < digits.size (level + 1) d := by
  have number := live.trans_le (digits.num_d_le _)
  have reached := (digits.lt_num_d_iff number).mp live
  have some_ := digits.occupied_length number
  rw [size]
  omega

theorem size_le (level d : Nat) : digits.size (level + 1) d ≤ (digits.DECOMPmeta d).length :=
  Nat.min_le_left _ _

theorem PartQ_lt {d j : Nat} (inside : j < (digits.DECOMPmeta d).length) :
    digits.start d + j < raw.L := by
  have next := digits.start_le (d + 1)
  rw [digits.start_succ] at next
  omega

theorem digit_prime {d j : Nat} (inside : j < (digits.DECOMPmeta d).length) :
    digits.digit (digits.start d + j) = d :=
  (digits.digit_eq_iff (digits.PartQ_lt inside)).mpr ⟨by omega, by omega⟩

theorem target_lt {level d id : Nat} (inside : level < raw.L) (target : id ∈ digits.targets level d) :
    id < raw.L + raw.K := by
  rcases digits.mem_targets.mp target with ⟨low, high⟩ | ⟨live, other⟩
  · exact high
  · omega

theorem mem_ParamsComplPartQ {level d id : Nat} :
    id ∈ digits.ParamsComplPartQ level d ↔ id ∈ digits.targets level d := by
  rw [ParamsComplPartQ, targets, List.mem_append, List.mem_append, Or.comm]

/-- The running place of a digit in a level is its first prime. -/
theorem level_place {level d : Nat} (live : d < digits.num_d (level + 1)) :
    blockPlace (digits.hatLevel level) d = digits.start d := by
  rw [blockPlace, hatLevel, ← List.map_take, List.take_range, Nat.min_eq_left live.le, List.map_map,
    start]
  congr 1
  apply List.map_congr_left
  intro e mem
  rw [Function.comp_apply, hatRows, List.length_map, List.length_range]
  exact digits.size_before (List.mem_range.mp mem) live

/-- The rows of a level belong to the live primes in their order. -/
theorem mem_levelWrites {level : Nat} (inside : level < raw.L) {write : Nat × Nat} :
    write ∈ digits.levelWrites level (digits.hatLevel level) ↔
      ∃ d j id, d < digits.num_d (level + 1) ∧ j < digits.size (level + 1) d ∧
        id ∈ digits.targets level d ∧
        write = (MODUPIDX_MATRIX level d (digits.start d + j) id,
          digits.PartQlHat (digits.size (level + 1) d) d j % raw.prime id) := by
  rw [levelWrites, mem_blockWrites]
  constructor
  · rintro ⟨d, rows, part, mem⟩
    obtain ⟨live, rfl⟩ := range_entry.mp part
    obtain ⟨j, row, l, value, limb, entry, rfl⟩ := mem_rowWrites.mp mem
    obtain ⟨bound, rfl⟩ := range_entry.mp limb
    rw [hatRow, List.getElem?_map] at entry
    obtain ⟨id, column, rfl⟩ := Option.map_eq_some_iff.mp entry
    refine ⟨d, j, id, live, bound,
      digits.mem_ParamsComplPartQ.mp (List.mem_of_getElem? column), ?_⟩
    rw [Nat.zero_add, Nat.zero_add, digits.level_place live, hatRow, List.length_map,
      digits.predicted_primeid_eq inside live column]
  · rintro ⟨d, j, id, live, limb, target, rfl⟩
    obtain ⟨l, column⟩ := List.mem_iff_getElem?.mp (digits.mem_ParamsComplPartQ.mpr target)
    have row : (digits.hatRow level d j)[l]? =
        some (digits.PartQlHat (digits.size (level + 1) d) d j % raw.prime id) := by
      rw [hatRow, List.getElem?_map, column, Option.map_some]
    refine ⟨d, _, range_entry.mpr ⟨live, rfl⟩,
      mem_rowWrites.mpr ⟨j, _, l, _, range_entry.mpr ⟨limb, rfl⟩, row, ?_⟩⟩
    rw [Nat.zero_add, Nat.zero_add, digits.level_place live, hatRow, List.length_map,
      digits.predicted_primeid_eq inside live column]

end Digits

/-- The three indices of an entry are read back from its place. -/
theorem place_indices {i j k : Nat} (row : j < 64) (column : k < 64) :
    MODUPIDX_SCALE i j k / 4096 = i ∧ MODUPIDX_SCALE i j k / 64 % 64 = j ∧
      MODUPIDX_SCALE i j k % 64 = k := by
  unfold MODUPIDX_SCALE MAXP
  omega

theorem matrix_place (i j k l : Nat) : MODUPIDX_MATRIX i j k l = MODUPIDX_SCALE i k l := rfl

namespace ModUpTables.Generated

variable {tables : ModUpTables} {raw : RawParams} {digits : Digits raw}
  (converted : tables.Generated digits)

include converted

/-- The running place of a digit is its first prime. -/
theorem scale_place {k : Nat} (inside : k ≤ digits.dnum) :
    blockPlace tables.PartQlHatInvModq k = digits.start k := by
  have lengths : (tables.PartQlHatInvModq.take k).map List.length =
      ((tables.PartQlHatInvModq.map fun rows => rows.map List.length).take k).map List.length := by
    rw [← List.map_take, List.map_map]
    apply List.map_congr_left
    intro rows mem
    exact (List.length_map List.length).symm
  rw [blockPlace, lengths, converted.scale_shape, ← List.map_take, List.take_range,
    Nat.min_eq_left inside, List.map_map, Digits.start]
  congr 1
  apply List.map_congr_left
  intro j mem
  change ((List.range (digits.DECOMPmeta j).length).map fun i => i + 1).length = _
  rw [List.length_map, List.length_range]

/-- A row of the nested table belongs to a prefix of a digit. -/
theorem scale_row {k i : Nat} {rows : List (List Nat)} {row : List Nat}
    (part : tables.PartQlHatInvModq[k]? = some rows) (limb : rows[i]? = some row) :
    k < digits.dnum ∧ i < (digits.DECOMPmeta k).length ∧ row.length = i + 1 := by
  have shape := congrArg (fun shapes => shapes[k]?) converted.scale_shape
  simp only [List.getElem?_map, part, Option.map_some] at shape
  rw [← List.getElem?_map, eq_comm, range_entry] at shape
  have lengths := congrArg (fun lengths => lengths[i]?) shape.2
  simp only [List.getElem?_map, limb, Option.map_some] at lengths
  rw [← List.getElem?_map, range_entry] at lengths
  exact ⟨shape.1, lengths.1, lengths.2.symm⟩

/-- Each prefix of a digit has a row. -/
theorem scale_exists {k i : Nat} (inside : k < digits.dnum)
    (limb : i < (digits.DECOMPmeta k).length) :
    ∃ rows row, tables.PartQlHatInvModq[k]? = some rows ∧ rows[i]? = some row ∧
      row.length = i + 1 := by
  have shape := congrArg (fun shapes => shapes[k]?) converted.scale_shape
  rw [range_entry.mpr ⟨inside, rfl⟩, List.getElem?_map] at shape
  obtain ⟨rows, part, same⟩ := Option.map_eq_some_iff.mp shape
  have lengths := congrArg (fun lengths => lengths[i]?) same
  simp only [List.getElem?_map, List.getElem?_range limb, Option.map_some] at lengths
  obtain ⟨row, listed, width⟩ := Option.map_eq_some_iff.mp lengths
  exact ⟨rows, row, part, listed, width⟩

/-- The scales are written for each prefix of a digit and each of its primes. -/
theorem mem_preScaleWrites {write : Nat × Nat} :
    write ∈ Digits.preScaleWrites tables.PartQlHatInvModq ↔
      ∃ k i j, k < digits.dnum ∧ i < (digits.DECOMPmeta k).length ∧ j ≤ i ∧
        write = (MODUPIDX_SCALE k i (digits.start k + j), tables.inverse k i j) := by
  rw [Digits.preScaleWrites, mem_blockWrites]
  have entry : ∀ {k i j : Nat} {rows : List (List Nat)} {row : List Nat} {value : Nat},
      tables.PartQlHatInvModq[k]? = some rows → rows[i]? = some row → row[j]? = some value →
        value = tables.inverse k i j := by
    intro k i j rows row value part limb column
    simp [ModUpTables.inverse, part, limb, column]
  constructor
  · rintro ⟨k, rows, part, mem⟩
    obtain ⟨i, row, j, value, limb, column, rfl⟩ := mem_rowWrites.mp mem
    obtain ⟨inside, bound, width⟩ := converted.scale_row part limb
    obtain ⟨short, -⟩ := List.getElem?_eq_some_iff.mp column
    refine ⟨k, i, j, inside, bound, by omega, ?_⟩
    rw [Nat.zero_add, Nat.zero_add, converted.scale_place inside.le, entry part limb column]
  · rintro ⟨k, i, j, inside, bound, order, rfl⟩
    obtain ⟨rows, row, part, limb, width⟩ := converted.scale_exists inside bound
    have column : row[j]? = some (row.get ⟨j, by omega⟩) := List.getElem?_eq_getElem (by omega)
    refine ⟨k, rows, part, mem_rowWrites.mpr ⟨i, row, j, _, limb, column, ?_⟩⟩
    rw [Nat.zero_add, Nat.zero_add, converted.scale_place inside.le, entry part limb column]

/-- The scales are found under the digit, the live prefix and the prime. -/
theorem pre_scale_eq (generated : raw.Generated) {k i j : Nat} (inside : k < digits.dnum)
    (limb : i < (digits.DECOMPmeta k).length) (column : j ≤ i) :
    tables.DecompAndModUp_pre_scale (MODUPIDX_SCALE k i (digits.start k + j)) =
      tables.inverse k i j := by
  have room := generated.tables
  have determined : Determined (Digits.preScaleWrites tables.PartQlHatInvModq)
      fun cell => tables.inverse (cell / 4096) (cell / 64 % 64)
        (cell % 64 - digits.start (cell / 4096)) := by
    intro write mem
    obtain ⟨d, n, m, number, bound, order, rfl⟩ := converted.mem_preScaleWrites.mp mem
    have first := digits.PartQ_lt bound
    obtain ⟨digit, row, place⟩ := @place_indices d n (digits.start d + m) (by omega) (by omega)
    simp only [digit, row, place, Nat.add_sub_cancel_left]
  exact commit_written determined
    (converted.mem_preScaleWrites.mpr ⟨k, i, j, inside, limb, column, rfl⟩) fun _ => 0

/-- The factors are written for each level, each live prime and each live target. -/
theorem mem_matrixWrites {write : Nat × Nat} :
    write ∈ digits.matrixWrites tables.PartQlHatModp ↔
      ∃ level d j id, level < raw.L ∧ d < digits.num_d (level + 1) ∧
        j < digits.size (level + 1) d ∧ id ∈ digits.targets level d ∧
        write = (MODUPIDX_MATRIX level d (digits.start d + j) id,
          digits.PartQlHat (digits.size (level + 1) d) d j % raw.prime id) := by
  rw [Digits.matrixWrites, List.mem_flatMap, converted.hat]
  constructor
  · rintro ⟨⟨rows, level⟩, found, mem⟩
    have listed : ((List.range raw.L).map digits.hatLevel)[level]? = some rows :=
      List.mem_zipIdx_iff_getElem?.mp found
    obtain ⟨bound, rfl⟩ := range_entry.mp listed
    obtain ⟨d, j, id, live, limb, target, rfl⟩ := (digits.mem_levelWrites bound).mp mem
    exact ⟨level, d, j, id, bound, live, limb, target, rfl⟩
  · rintro ⟨level, d, j, id, bound, live, limb, target, rfl⟩
    refine ⟨(digits.hatLevel level, level), ?_,
      (digits.mem_levelWrites bound).mpr ⟨d, j, id, live, limb, target, rfl⟩⟩
    exact List.mem_zipIdx_iff_getElem?.mpr (range_entry.mpr ⟨bound, rfl⟩)

/-- The factors are found under the level, the prime of the digit and the target. -/
theorem matrix_eq (generated : raw.Generated) {level d j id : Nat} (inside : level < raw.L)
    (live : d < digits.num_d (level + 1)) (limb : j < digits.size (level + 1) d)
    (target : id ∈ digits.targets level d) :
    tables.DecompAndModUp_matrix digits (MODUPIDX_MATRIX level d (digits.start d + j) id) =
      digits.PartQlHat (digits.size (level + 1) d) d j % raw.prime id := by
  have room := generated.tables
  have determined : Determined (digits.matrixWrites tables.PartQlHatModp)
      fun cell =>
        let i := digits.digit (cell / 64 % 64)
        digits.PartQlHat (digits.size (cell / 4096 + 1) i) i (cell / 64 % 64 - digits.start i) %
          raw.prime (cell % 64) := by
    intro write mem
    obtain ⟨k, e, m, other, below, number, bound, outside, rfl⟩ := (converted.mem_matrixWrites).mp mem
    have whole := bound.trans_le (digits.size_le k e)
    have regular := digits.PartQ_lt whole
    have column := digits.target_lt below outside
    obtain ⟨first, second, third⟩ := @place_indices k (digits.start e + m) other (by omega) (by omega)
    simp only [matrix_place, first, second, third, digits.digit_prime whole, Nat.add_sub_cancel_left]
  exact commit_written determined
    ((converted.mem_matrixWrites).mpr ⟨level, d, j, id, inside, live, limb, target, rfl⟩) fun _ => 0

end ModUpTables.Generated

end Fideslib.KeySwitch
