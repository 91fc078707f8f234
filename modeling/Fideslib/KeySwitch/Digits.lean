/-
This file models the digits of the chain and the tables that address their limbs.
-/

import Fideslib.KeySwitch.Constants
import Fideslib.Library.Regions

namespace Fideslib.KeySwitch

open Intervals

/-- A special prime has no digit. -/
structure LimbRecord where
  id : Nat
  digit : Option Nat
deriving DecidableEq, Repr

def findDigitOnParam (PARTITIONmoduli : List (List Nat)) (modulus : Nat) : Option Nat :=
  PARTITIONmoduli.findIdx? fun part => part.contains modulus

/-- The digits of the primes must ascend, and each must be below the number of digits. -/
def generateMetaFrom (PARTITIONmoduli : List (List Nat)) (dnum : Nat) :
    List Nat → Nat → Nat → Option (List LimbRecord)
  | [], _, _ => some []
  | modulus :: moduli, i, prev_digit_ =>
      match findDigitOnParam PARTITIONmoduli modulus with
      | none => none
      | some digit_ =>
          if digit_ < prev_digit_ ∨ dnum ≤ digit_ then none
          else (generateMetaFrom PARTITIONmoduli dnum moduli (i + 1) digit_).map
            (⟨i, some digit_⟩ :: ·)

def generateMeta (PARTITIONmoduli : List (List Nat)) (dnum : Nat) (moduli : List Nat) :
    Option (List LimbRecord) :=
  generateMetaFrom PARTITIONmoduli dnum moduli 0 0

def MAXD : Nat := 8

/-- The context accepts the digits, and the source context leaves none of them empty. -/
structure Digits (raw : RawParams) where
  dnum : Nat
  PARTITIONmoduli : List (List Nat)
  meta_ : List LimbRecord
  accepted : generateMeta PARTITIONmoduli dnum raw.moduli = some meta_
  tables : dnum ≤ MAXD
  occupied : ∀ d, d < dnum → ∃ l ∈ meta_, l.digit = some d

namespace Digits

variable {raw : RawParams} (digits : Digits raw)

def specialMeta (raw : RawParams) : List LimbRecord :=
  (List.range raw.K).map fun i => ⟨raw.L + i, none⟩

def DIGITmeta (d : Nat) : List LimbRecord :=
  specialMeta raw ++ digits.meta_.filter fun l => l.digit ≠ some d

def DECOMPmeta (d : Nat) : List LimbRecord :=
  (List.range raw.L).flatMap fun primeid =>
    digits.meta_.filter fun l => l.id = primeid ∧ l.digit = some d

def primeid_digit (primeid : Nat) : Option Nat :=
  (digits.meta_.find? fun l => l.id = primeid).bind LimbRecord.digit

def primeid_partition (pos : Nat) : Nat := (digits.meta_.map LimbRecord.id).getD pos 0

def primeid_digit_to (d num : Nat) : Nat := ((digits.DIGITmeta d).map LimbRecord.id).getD num 0

def primeid_digit_from (d num : Nat) : Nat := ((digits.DECOMPmeta d).map LimbRecord.id).getD num 0

/-- The two lists of a digit share no prime. -/
def pos_in_digit (d primeid : Nat) : Nat :=
  let from_ := (digits.DECOMPmeta d).map LimbRecord.id
  if primeid ∈ from_ then from_.idxOf primeid
  else ((digits.DIGITmeta d).map LimbRecord.id).idxOf primeid

def num_primeid_digit_from (d k : Nat) : Nat :=
  ((digits.DECOMPmeta d).filter fun l => l.id ≤ k).length

def num_primeid_digit_to (d k : Nat) : Nat :=
  ((digits.DIGITmeta d).filter fun l => l.id ≤ k ∨ raw.L ≤ l.id).length

/-- The digits before this one have this many limbs. -/
def start (d : Nat) : Nat := ((List.range d).map fun j => (digits.DECOMPmeta j).length).sum

/-- This is the number of live limbs of a digit. -/
def size (limbsize d : Nat) : Nat := min (digits.DECOMPmeta d).length (limbsize - digits.start d)

/-- The digits are counted up to the first without live limbs. -/
def num_d (limbsize : Nat) : Nat :=
  ((List.range digits.dnum).takeWhile fun i => 0 < digits.size limbsize i).length

def num_special : Nat := ((digits.DIGITmeta 0).takeWhile fun l => raw.L ≤ l.id).length

/-- The digit of a prime of the chain. -/
def digit (i : Nat) : Nat := (digits.primeid_digit i).getD 0

end Digits

section Accepted

variable {PARTITIONmoduli : List (List Nat)} {dnum : Nat}

/-- The accepted records number the primes, and their digits ascend. -/
theorem generateMetaFrom_spec {moduli : List Nat} {i prev_digit_ : Nat} {records : List LimbRecord}
    (accepted : generateMetaFrom PARTITIONmoduli dnum moduli i prev_digit_ = some records) :
    records.map LimbRecord.id = List.range' i moduli.length ∧
      (∀ l ∈ records, ∃ d, l.digit = some d ∧ prev_digit_ ≤ d ∧ d < dnum) ∧
      records.Pairwise fun first second =>
        ∀ d e, first.digit = some d → second.digit = some e → d ≤ e := by
  induction moduli generalizing i prev_digit_ records with
  | nil =>
      cases accepted
      exact ⟨rfl, fun l mem => absurd mem List.not_mem_nil, List.Pairwise.nil⟩
  | cons modulus moduli inductionHypothesis =>
      unfold generateMetaFrom at accepted
      cases found : findDigitOnParam PARTITIONmoduli modulus with
      | none =>
          rw [found] at accepted
          cases accepted
      | some digit_ =>
          simp only [found] at accepted
          split at accepted
          · cases accepted
          · rename_i bounds
            obtain ⟨later, rest, rfl⟩ := Option.map_eq_some_iff.mp accepted
            obtain ⟨ids, range, ascending⟩ := inductionHypothesis rest
            refine ⟨?_, ?_, ?_⟩
            · rw [List.map_cons, ids, List.length_cons, List.range'_succ]
            · intro l mem
              rcases List.mem_cons.mp mem with rfl | inside
              · exact ⟨digit_, rfl, by omega, by omega⟩
              · obtain ⟨d, has, low, high⟩ := range l inside
                exact ⟨d, has, by omega, high⟩
            · apply List.Pairwise.cons _ ascending
              intro l mem d e first second
              obtain ⟨other, has, low, high⟩ := range l mem
              rw [second] at has
              cases has
              cases first
              exact low

end Accepted

namespace Digits

variable {raw : RawParams} (digits : Digits raw)

theorem meta_id : digits.meta_.map LimbRecord.id = List.range raw.L := by
  rw [(generateMetaFrom_spec digits.accepted).1, List.range_eq_range']
  rfl

theorem meta_length : digits.meta_.length = raw.L := by
  have length := congrArg List.length digits.meta_id
  rwa [List.length_map, List.length_range] at length

theorem meta_get_id {i : Nat} (inside : i < digits.meta_.length) :
    (digits.meta_.get ⟨i, inside⟩).id = i := by
  have entry := congrArg (fun ids => ids[i]?) digits.meta_id
  have bound : i < raw.L := digits.meta_length ▸ inside
  simpa [inside, bound] using entry

theorem primeid_digit_get {i : Nat} (inside : i < digits.meta_.length) :
    digits.primeid_digit i = (digits.meta_.get ⟨i, inside⟩).digit := by
  have found : digits.meta_.find? (fun l => l.id = i) = some (digits.meta_.get ⟨i, inside⟩) := by
    rw [List.find?_eq_some_iff_getElem]
    refine ⟨by simpa using digits.meta_get_id inside, i, inside, rfl, ?_⟩
    intro j before
    have other := digits.meta_get_id (before.trans inside)
    simp only [List.get_eq_getElem] at other
    simp only [other, Bool.not_eq_true', decide_eq_false_iff_not]
    omega
  rw [primeid_digit, found]
  rfl

theorem primeid_digit_eq {i : Nat} (inside : i < raw.L) :
    digits.primeid_digit i = some (digits.digit i) := by
  have bound : i < digits.meta_.length := digits.meta_length.symm ▸ inside
  obtain ⟨d, has, low, high⟩ :=
    (generateMetaFrom_spec digits.accepted).2.1 _ (List.get_mem digits.meta_ ⟨i, bound⟩)
  rw [digit, primeid_digit_get digits bound, has]
  rfl

theorem digit_lt {i : Nat} (inside : i < raw.L) : digits.digit i < digits.dnum := by
  have bound : i < digits.meta_.length := digits.meta_length.symm ▸ inside
  obtain ⟨d, has, low, high⟩ :=
    (generateMetaFrom_spec digits.accepted).2.1 _ (List.get_mem digits.meta_ ⟨i, bound⟩)
  rw [digit, primeid_digit_get digits bound, has]
  exact high

theorem primeid_digit_special (k : Nat) : digits.primeid_digit (raw.L + k) = none := by
  have absent : digits.meta_.find? (fun l => l.id = raw.L + k) = none := by
    rw [List.find?_eq_none]
    intro l mem
    have id : l.id ∈ digits.meta_.map LimbRecord.id := List.mem_map_of_mem mem
    rw [digits.meta_id, List.mem_range] at id
    simp only [decide_eq_true_eq]
    omega
  rw [primeid_digit, absent]
  rfl

theorem regular_of_digit {id i : Nat} (decomp : digits.primeid_digit id = some i) : id < raw.L := by
  by_contra above
  have special := digits.primeid_digit_special (id - raw.L)
  rw [show raw.L + (id - raw.L) = id by omega, decomp] at special
  cases special

/-- The accepted records are the primes in their order with their digits. -/
theorem meta_eq :
    digits.meta_ = (List.range raw.L).map fun i => ⟨i, some (digits.digit i)⟩ := by
  apply List.ext_get
  · rw [digits.meta_length, List.length_map, List.length_range]
  · intro i inside bound
    have below : i < raw.L := digits.meta_length ▸ inside
    have id := digits.meta_get_id inside
    have digit := digits.primeid_digit_eq below
    rw [digits.primeid_digit_get inside] at digit
    calc digits.meta_.get ⟨i, inside⟩
        = ⟨(digits.meta_.get ⟨i, inside⟩).id, (digits.meta_.get ⟨i, inside⟩).digit⟩ := rfl
      _ = ⟨i, some (digits.digit i)⟩ := by rw [id, digit]
      _ = _ := by rw [List.get_eq_getElem, List.getElem_map, List.getElem_range]

theorem digit_mono {i j : Nat} (order : i ≤ j) (inside : j < raw.L) :
    digits.digit i ≤ digits.digit j := by
  rcases Nat.lt_or_eq_of_le order with before | same
  · have ascending := (generateMetaFrom_spec digits.accepted).2.2
    rw [digits.meta_eq, List.pairwise_map] at ascending
    have first : i < (List.range raw.L).length := by rw [List.length_range]; omega
    have second : j < (List.range raw.L).length := by rw [List.length_range]; omega
    have pair := List.pairwise_iff_getElem.mp ascending i j first second before
    rw [List.getElem_range, List.getElem_range] at pair
    exact pair _ _ rfl rfl
  · rw [same]

theorem DIGITmeta_id (d : Nat) :
    (digits.DIGITmeta d).map LimbRecord.id =
      (List.range raw.K).map (raw.L + ·) ++ (List.range raw.L).filter (digits.digit · ≠ d) := by
  rw [DIGITmeta, List.map_append, specialMeta, List.map_map, digits.meta_eq, List.filter_map,
    List.map_map]
  congr 1
  rw [show LimbRecord.id ∘ (fun i => (⟨i, some (digits.digit i)⟩ : LimbRecord)) = id from rfl,
    List.map_id]
  apply List.filter_congr
  intro i mem
  simp

/-- Each prime appends its own record to the list of its digit. -/
theorem single_record (d : Nat) {primeid : Nat} (inside : primeid < raw.L) :
    (digits.meta_.filter fun l => l.id = primeid ∧ l.digit = some d).map LimbRecord.id =
      if digits.digit primeid = d then [primeid] else [] := by
  have ids : (digits.meta_.filter fun l => l.id = primeid ∧ l.digit = some d).map LimbRecord.id =
      ((List.range raw.L).filter (· = primeid)).filter (digits.digit · = d) := by
    rw [digits.meta_eq, List.filter_map, List.map_map, List.filter_filter,
      show LimbRecord.id ∘ (fun i => (⟨i, some (digits.digit i)⟩ : LimbRecord)) = id from rfl,
      List.map_id]
    apply List.filter_congr
    intro i mem
    simp [Bool.and_comm]
  rw [ids, List.filter_eq, List.count_range, if_pos inside]
  by_cases same : digits.digit primeid = d <;> simp [same]

theorem DECOMPmeta_id (d : Nat) :
    (digits.DECOMPmeta d).map LimbRecord.id = (List.range raw.L).filter (digits.digit · = d) := by
  have collect : ∀ ids : List Nat, (∀ i ∈ ids, i < raw.L) →
      (ids.flatMap fun primeid =>
        (digits.meta_.filter fun l => l.id = primeid ∧ l.digit = some d).map LimbRecord.id) =
      ids.filter (digits.digit · = d) := by
    intro ids bounds
    induction ids with
    | nil => rfl
    | cons i ids inductionHypothesis =>
        have rest := inductionHypothesis (fun j mem => bounds j (List.mem_cons_of_mem _ mem))
        rw [List.flatMap_cons, rest, digits.single_record d (bounds i List.mem_cons_self)]
        by_cases same : digits.digit i = d <;> simp [same]
  rw [DECOMPmeta, List.map_flatMap]
  exact collect _ (fun i mem => List.mem_range.mp mem)

theorem DECOMPmeta_length (d : Nat) :
    (digits.DECOMPmeta d).length = (List.range raw.L).countP (digits.digit · = d) := by
  rw [← List.length_map LimbRecord.id, digits.DECOMPmeta_id, List.countP_eq_length_filter]

/-- The start of a digit counts the primes of the earlier digits. -/
theorem start_eq (d : Nat) : digits.start d = (List.range raw.L).countP (digits.digit · < d) := by
  induction d with
  | zero => simp [start]
  | succ d inductionHypothesis =>
      rw [start, List.range_succ, List.map_append, List.sum_append, ← start, inductionHypothesis,
        List.map_singleton, List.sum_singleton, digits.DECOMPmeta_length]
      generalize List.range raw.L = ids
      induction ids with
      | nil => rfl
      | cons i ids inductionHypothesis =>
          simp only [List.countP_cons, decide_eq_true_eq]
          split_ifs <;> omega

/-- The digits are contiguous, so the start of a digit bounds the earlier ones. -/
theorem digit_lt_iff {i d : Nat} (inside : i < raw.L) :
    digits.digit i < d ↔ i < digits.start d := by
  rw [digits.start_eq]
  apply count_initial _ inside
  intro i j order bound below
  have ascending := digits.digit_mono order bound
  omega

theorem primeid_digit_to_special {d k : Nat} (inside : k < raw.K) :
    digits.primeid_digit_to d k = raw.L + k := by
  rw [primeid_digit_to, DIGITmeta_id, List.getD_eq_getElem?_getD,
    List.getElem?_append_left (by simpa using inside)]
  simp [inside]

theorem primeid_partition_eq {i : Nat} (inside : i < raw.L) : digits.primeid_partition i = i := by
  rw [primeid_partition, digits.meta_id]
  simp [inside]

theorem num_special_eq : digits.num_special = raw.K := by
  have ids : digits.num_special =
      (((digits.DIGITmeta 0).map LimbRecord.id).takeWhile (raw.L ≤ ·)).length := by
    rw [num_special, List.takeWhile_map, List.length_map]
    rfl
  rw [ids, digits.DIGITmeta_id, takeWhile_split]
  · rw [List.length_map, List.length_range]
  · intro id mem
    obtain ⟨k, inside, rfl⟩ := List.mem_map.mp mem
    exact decide_eq_true (Nat.le_add_right _ _)
  · intro id mem
    have inside := List.mem_range.mp (List.mem_filter.mp mem).1
    simpa using inside

theorem num_d_le (limbsize : Nat) : digits.num_d limbsize ≤ digits.dnum := by
  have prefix_ : (List.range digits.dnum).takeWhile (fun i => decide (0 < digits.size limbsize i)) <+:
      List.range digits.dnum := List.takeWhile_prefix _
  have short := prefix_.length_le
  rwa [List.length_range] at short

theorem occupied_length {d : Nat} (inside : d < digits.dnum) : 0 < (digits.DECOMPmeta d).length := by
  obtain ⟨l, mem, has⟩ := digits.occupied d inside
  rw [digits.DECOMPmeta_length, List.countP_pos_iff]
  rw [digits.meta_eq] at mem
  obtain ⟨i, inside, rfl⟩ := List.mem_map.mp mem
  exact ⟨i, inside, by simpa using has⟩

/-- The start of the next digit follows the limbs of this one. -/
theorem start_succ (d : Nat) :
    digits.start (d + 1) = digits.start d + (digits.DECOMPmeta d).length := by
  rw [start, List.range_succ, List.map_append, List.sum_append, List.map_singleton,
    List.sum_singleton]
  rfl

theorem start_mono {d e : Nat} (order : d ≤ e) : digits.start d ≤ digits.start e := by
  induction e, order using Nat.le_induction with
  | base => exact le_rfl
  | succ e above inductionHypothesis =>
      have next := digits.start_succ e
      omega

/-- A digit is counted exactly where its first limb is live. -/
theorem lt_num_d_iff {limbsize d : Nat} (inside : d < digits.dnum) :
    d < digits.num_d limbsize ↔ digits.start d < limbsize := by
  have live : ∀ i < digits.dnum, (0 < digits.size limbsize i ↔ digits.start i < limbsize) := by
    intro i bound
    have some_ := digits.occupied_length bound
    rw [size]
    omega
  have initial : ∀ i j, i ≤ j → j < digits.dnum → 0 < digits.size limbsize j →
      0 < digits.size limbsize i := by
    intro i j order bound positive
    have starts := digits.start_mono order
    rw [live j bound] at positive
    rw [live i (by omega)]
    omega
  rw [num_d, takeWhile_initial initial inside, live d inside]

/-- The digit of a live prime is counted. -/
theorem digit_lt_num_d {level i : Nat} (live : i ≤ level) (inside : i < raw.L) :
    digits.digit i < digits.num_d (level + 1) := by
  rw [digits.lt_num_d_iff (digits.digit_lt inside)]
  have after := mt (digits.digit_lt_iff inside).mpr (lt_irrefl (digits.digit i))
  omega

end Digits

end Fideslib.KeySwitch
