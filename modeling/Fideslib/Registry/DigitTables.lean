/-
This file translates the loops that fill the tables of the digits in the constants of the devices.
-/

import Mathlib

namespace Fideslib.Registry

/-- These are the rows of one digit in the tables of the constants. -/
structure DigitRow where
  primeid_digit_from : Nat → Nat
  primeid_digit_to : Nat → Nat
  pos_in_digit : Nat → Nat
  num_primeid_digit_from : Nat → Nat
  num_primeid_digit_to : Nat → Nat

namespace DigitRow

/-- The constants start with zeros. -/
def zero : DigitRow := ⟨fun _ => 0, fun _ => 0, fun _ => 0, fun _ => 0, fun _ => 0⟩

/-- A prime is written to the next place, and its place to the table of the places. -/
def push (counted : Nat × (Nat → Nat) × (Nat → Nat)) (id : Nat) :
    Nat × (Nat → Nat) × (Nat → Nat) :=
  (counted.1 + 1, Function.update counted.2.1 counted.1 id, Function.update counted.2.2 id counted.1)

/-- The loop over the records of a digit writes those that it lists. -/
def collect (listed : Nat → Bool) (ids : List Nat) (table pos : Nat → Nat) :
    Nat × (Nat → Nat) × (Nat → Nat) :=
  ids.foldl (fun counted id => if listed id then push counted id else counted) (0, table, pos)

/-- The primes of the digit up to the level are listed. -/
def setFrom (ids : List Nat) (k : Nat) (row : DigitRow) : DigitRow :=
  let counted := collect (fun id => id ≤ k) ids row.primeid_digit_from row.pos_in_digit
  { row with
    primeid_digit_from := counted.2.1
    pos_in_digit := counted.2.2
    num_primeid_digit_from := Function.update row.num_primeid_digit_from k counted.1 }

/-- The special primes are listed at every level. -/
def setTo (L : Nat) (ids : List Nat) (k : Nat) (row : DigitRow) : DigitRow :=
  let counted := collect (fun id => id ≤ k ∨ L ≤ id) ids row.primeid_digit_to row.pos_in_digit
  { row with
    primeid_digit_to := counted.2.1
    pos_in_digit := counted.2.2
    num_primeid_digit_to := Function.update row.num_primeid_digit_to k counted.1 }

/-- The loop over the levels writes both lists again at each level. -/
def setLevels (L : Nat) (DECOMP DIGIT : List Nat) (levels : Nat) (row : DigitRow) : DigitRow :=
  (List.range levels).foldl (fun row k => setTo L DIGIT k (setFrom DECOMP k row)) row

section Fields

variable (L : Nat) (ids : List Nat) (k : Nat) (row : DigitRow)

theorem setFrom_from : (setFrom ids k row).primeid_digit_from =
    (collect (fun id => id ≤ k) ids row.primeid_digit_from row.pos_in_digit).2.1 := rfl

theorem setFrom_pos : (setFrom ids k row).pos_in_digit =
    (collect (fun id => id ≤ k) ids row.primeid_digit_from row.pos_in_digit).2.2 := rfl

@[simp]
theorem setFrom_to : (setFrom ids k row).primeid_digit_to = row.primeid_digit_to := rfl

@[simp]
theorem setTo_from : (setTo L ids k row).primeid_digit_from = row.primeid_digit_from := rfl

theorem setTo_to : (setTo L ids k row).primeid_digit_to =
    (collect (fun id => id ≤ k ∨ L ≤ id) ids row.primeid_digit_to row.pos_in_digit).2.1 := rfl

theorem setTo_pos : (setTo L ids k row).pos_in_digit =
    (collect (fun id => id ≤ k ∨ L ≤ id) ids row.primeid_digit_to row.pos_in_digit).2.2 := rfl

end Fields

/-- The loops write the primes that they list one after the other. -/
theorem collect_eq (listed : Nat → Bool) (ids : List Nat) (table pos : Nat → Nat) :
    collect listed ids table pos = (ids.filter listed).foldl push (0, table, pos) := by
  rw [collect, List.foldl_filter]

section Written

variable {kept : List Nat} {table pos : Nat → Nat}

@[simp]
theorem push_count (kept : List Nat) (table pos : Nat → Nat) :
    (kept.foldl push (0, table, pos)).1 = kept.length := by
  induction kept using List.reverseRecOn with
  | nil => rfl
  | append_singleton kept id inductionHypothesis =>
      rw [List.foldl_append, List.length_append, ← inductionHypothesis]
      rfl

/-- The written places hold the primes in their order, and the later places stay. -/
theorem push_table (kept : List Nat) (table pos : Nat → Nat) (num : Nat) :
    (kept.foldl push (0, table, pos)).2.1 num =
      if num < kept.length then kept.getD num 0 else table num := by
  induction kept using List.reverseRecOn with
  | nil => rfl
  | append_singleton kept id inductionHypothesis =>
      rw [List.foldl_append]
      change Function.update (kept.foldl push (0, table, pos)).2.1
        (kept.foldl push (0, table, pos)).1 id num = _
      rw [push_count, List.length_append, List.length_singleton, Function.update_apply,
        inductionHypothesis]
      rcases lt_trichotomy num kept.length with before | here | after
      · rw [if_neg (by omega), if_pos before, if_pos (by omega),
          List.getD_append _ _ _ _ before]
      · rw [if_pos here, if_pos (by omega), List.getD_append_right _ _ _ _ (by omega), here,
          Nat.sub_self]
        rfl
      · rw [if_neg (by omega), if_neg (by omega), if_neg (by omega)]

/-- A written prime has its place, and the places of the other primes stay. -/
theorem push_pos (distinct : kept.Nodup) (id : Nat) :
    (kept.foldl push (0, table, pos)).2.2 id =
      if id ∈ kept then kept.idxOf id else pos id := by
  induction kept using List.reverseRecOn with
  | nil => rfl
  | append_singleton kept last inductionHypothesis =>
      rw [List.nodup_append] at distinct
      obtain ⟨rest, -, apart⟩ := distinct
      have fresh : last ∉ kept := fun listed => apart last listed last List.mem_cons_self rfl
      rw [List.foldl_append]
      change Function.update (kept.foldl push (0, table, pos)).2.2 last
        (kept.foldl push (0, table, pos)).1 id = _
      rw [push_count, Function.update_apply, inductionHypothesis rest]
      by_cases same : id = last
      · subst same
        rw [if_pos rfl, if_pos (by simp), List.idxOf_append_of_notMem fresh]
        simp
      · rw [if_neg same]
        by_cases listed : id ∈ kept
        · rw [if_pos listed, if_pos (List.mem_append_left _ listed),
            List.idxOf_append_of_mem listed]
        · rw [if_neg listed, if_neg (by simp [listed, same])]

end Written

section Listed

variable {listed : Nat → Bool} {ids : List Nat} (table pos : Nat → Nat)

@[simp]
theorem collect_count (listed : Nat → Bool) (ids : List Nat) (table pos : Nat → Nat) :
    (collect listed ids table pos).1 = (ids.filter listed).length := by
  rw [collect_eq, push_count]

/-- Where the listed primes lead their list, the table agrees with the list. -/
theorem collect_table (leading : ids.filter listed <+: ids) (num : Nat) :
    (collect listed ids table pos).2.1 num =
      if num < (ids.filter listed).length then ids.getD num 0 else table num := by
  rw [collect_eq, push_table]
  split
  · rename_i inside
    obtain ⟨rest, whole⟩ := leading
    have entry := List.getD_append (ids.filter listed) rest 0 num inside
    rw [whole] at entry
    exact entry.symm
  · rfl

theorem collect_pos (leading : ids.filter listed <+: ids) (distinct : ids.Nodup) (id : Nat) :
    (collect listed ids table pos).2.2 id =
      if id ∈ ids.filter listed then ids.idxOf id else pos id := by
  rw [collect_eq, push_pos (distinct.filter _)]
  split
  · rename_i inside
    obtain ⟨rest, whole⟩ := leading
    have place := @List.idxOf_append_of_mem _ _ rest _ _ _ inside
    rw [whole] at place
    exact place.symm
  · rfl

end Listed

/-- The listed primes of both lists lead their list, and no prime is in both. -/
structure Ordered (L : Nat) (DECOMP DIGIT : List Nat) : Prop where
  fromLeads : ∀ k, DECOMP.filter (fun id => id ≤ k) <+: DECOMP
  toLeads : ∀ k, DIGIT.filter (fun id => id ≤ k ∨ L ≤ id) <+: DIGIT
  fromDistinct : DECOMP.Nodup
  toDistinct : DIGIT.Nodup
  apart : ∀ id ∈ DECOMP, id ∉ DIGIT

/-- The rows of a digit describe its lists at a level. -/
structure Describes (L : Nat) (DECOMP DIGIT : List Nat) (k : Nat) (row : DigitRow) : Prop where
  fromCount : row.num_primeid_digit_from k = (DECOMP.filter fun id => id ≤ k).length
  toCount : row.num_primeid_digit_to k = (DIGIT.filter fun id => id ≤ k ∨ L ≤ id).length
  fromEntry : ∀ num < (DECOMP.filter fun id => id ≤ k).length,
    row.primeid_digit_from num = DECOMP.getD num 0
  toEntry : ∀ num < (DIGIT.filter fun id => id ≤ k ∨ L ≤ id).length,
    row.primeid_digit_to num = DIGIT.getD num 0
  fromPlace : ∀ id ∈ DECOMP.filter fun id => id ≤ k, row.pos_in_digit id = DECOMP.idxOf id
  toPlace : ∀ id ∈ DIGIT.filter fun id => id ≤ k ∨ L ≤ id, row.pos_in_digit id = DIGIT.idxOf id

section Levels

variable {L : Nat} {DECOMP DIGIT : List Nat} (ordered : Ordered L DECOMP DIGIT)

include ordered

/-- The places after one level are those of both lists, or have not changed. -/
theorem pos_after (k : Nat) (row : DigitRow) (id : Nat) :
    (setTo L DIGIT k (setFrom DECOMP k row)).pos_in_digit id =
      if id ∈ DIGIT.filter fun id => id ≤ k ∨ L ≤ id then DIGIT.idxOf id
      else if id ∈ DECOMP.filter fun id => id ≤ k then DECOMP.idxOf id else row.pos_in_digit id := by
  rw [setTo_pos, collect_pos _ _ (ordered.toLeads k) ordered.toDistinct, setFrom_pos,
    collect_pos _ _ (ordered.fromLeads k) ordered.fromDistinct]

/-- The step of a level writes what the rows must say at this level. -/
theorem describes_after (k : Nat) (row : DigitRow) :
    Describes L DECOMP DIGIT k (setTo L DIGIT k (setFrom DECOMP k row)) where
  fromCount := by
    change Function.update row.num_primeid_digit_from k (collect _ _ _ _).1 k = _
    rw [Function.update_self, collect_count]
  toCount := by
    change Function.update row.num_primeid_digit_to k (collect _ _ _ _).1 k = _
    rw [Function.update_self, collect_count]
  fromEntry := by
    intro num inside
    rw [setTo_from, setFrom_from, collect_table _ _ (ordered.fromLeads k), if_pos inside]
  toEntry := by
    intro num inside
    rw [setTo_to, collect_table _ _ (ordered.toLeads k), if_pos inside]
  fromPlace := by
    intro id listed
    have other : id ∉ DIGIT.filter fun id => id ≤ k ∨ L ≤ id := fun both =>
      ordered.apart id (List.mem_filter.mp listed).1 (List.mem_filter.mp both).1
    rw [pos_after ordered, if_neg other, if_pos listed]
  toPlace := by
    intro id listed
    rw [pos_after ordered, if_pos listed]

/-- The step of a level keeps what the rows say at the other levels. -/
theorem Describes.later {j k : Nat} {row : DigitRow} (other : j ≠ k)
    (describes : Describes L DECOMP DIGIT j row) :
    Describes L DECOMP DIGIT j (setTo L DIGIT k (setFrom DECOMP k row)) where
  fromCount := by
    change Function.update row.num_primeid_digit_from k _ j = _
    rw [Function.update_of_ne other, describes.fromCount]
  toCount := by
    change Function.update row.num_primeid_digit_to k _ j = _
    rw [Function.update_of_ne other, describes.toCount]
  fromEntry := by
    intro num inside
    rw [setTo_from, setFrom_from, collect_table _ _ (ordered.fromLeads k),
      describes.fromEntry num inside, ite_self]
  toEntry := by
    intro num inside
    rw [setTo_to, collect_table _ _ (ordered.toLeads k), setFrom_to,
      describes.toEntry num inside, ite_self]
  fromPlace := by
    intro id listed
    have absent : id ∉ DIGIT.filter fun id => id ≤ k ∨ L ≤ id := fun both =>
      ordered.apart id (List.mem_filter.mp listed).1 (List.mem_filter.mp both).1
    rw [pos_after ordered, if_neg absent, describes.fromPlace id listed, ite_self]
  toPlace := by
    intro id listed
    have absent : id ∉ DECOMP.filter fun id => id ≤ k := fun both =>
      ordered.apart id (List.mem_filter.mp both).1 (List.mem_filter.mp listed).1
    rw [pos_after ordered, if_neg absent, describes.toPlace id listed, ite_self]

/-- After the loop over the levels the rows describe the lists at each of them. -/
theorem setLevels_describes {levels k : Nat} (inside : k < levels) (row : DigitRow) :
    Describes L DECOMP DIGIT k (setLevels L DECOMP DIGIT levels row) := by
  induction levels with
  | zero => omega
  | succ levels inductionHypothesis =>
      rw [setLevels, List.range_succ, List.foldl_append]
      change Describes L DECOMP DIGIT k (setTo L DIGIT levels
        (setFrom DECOMP levels (setLevels L DECOMP DIGIT levels row)))
      by_cases last : k = levels
      · rw [last]
        exact describes_after ordered levels _
      · exact (inductionHypothesis (by omega)).later ordered last

end Levels

section Ascending

variable {L k : Nat} {ids special DECOMP others : List Nat}

/-- The primes up to a level lead an ascending list. -/
theorem ascending_leads (ascending : ids.Pairwise (· < ·)) (k : Nat) :
    ids.filter (fun id => id ≤ k) <+: ids := by
  induction ids with
  | nil => exact List.prefix_rfl
  | cons id ids inductionHypothesis =>
      obtain ⟨above, rest⟩ := List.pairwise_cons.mp ascending
      by_cases listed : id ≤ k
      · rw [List.filter_cons_of_pos (by simpa using listed)]
        exact (List.prefix_cons_inj id).mpr (inductionHypothesis rest)
      · have none : (id :: ids).filter (fun id => id ≤ k) = [] := by
          rw [List.filter_eq_nil_iff]
          intro other member
          rcases List.mem_cons.mp member with rfl | later
          · simpa using listed
          · have order := above other later
            simp only [decide_eq_true_eq]
            omega
        rw [none]
        exact List.nil_prefix

/-- The special primes are listed first, so both lists lead where the chain ascends. -/
theorem ordered_of_ascending (decomp : DECOMP.Pairwise (· < ·)) (chain : others.Pairwise (· < ·))
    (above : ∀ id ∈ special, L ≤ id) (distinct : special.Nodup) (inside : ∀ id ∈ DECOMP, id < L)
    (regular : ∀ id ∈ others, id < L) (apart : ∀ id ∈ DECOMP, id ∉ others) :
    Ordered L DECOMP (special ++ others) where
  fromLeads := ascending_leads decomp
  toLeads := by
    intro k
    have whole : special.filter (fun id => id ≤ k ∨ L ≤ id) = special := by
      rw [List.filter_eq_self]
      intro id member
      exact decide_eq_true (Or.inr (above id member))
    have part : others.filter (fun id => id ≤ k ∨ L ≤ id) = others.filter fun id => id ≤ k := by
      refine List.filter_congr fun id member => ?_
      have below := regular id member
      rw [decide_eq_decide]
      omega
    rw [List.filter_append, whole, part]
    exact (List.prefix_append_right_inj special).mpr (ascending_leads chain k)
  fromDistinct := decomp.imp Nat.ne_of_lt
  toDistinct := by
    rw [List.nodup_append]
    refine ⟨distinct, chain.imp Nat.ne_of_lt, fun id left other right same => ?_⟩
    have low := above id left
    have high := regular other right
    omega
  apart := by
    intro id member both
    rcases List.mem_append.mp both with left | right
    · have low := above id left
      have high := inside id member
      omega
    · exact apart id member right

end Ascending

/-- The first entries of both tables are the primes of the sets, and the places invert them. -/
structure Lists (row : DigitRow) (k : Nat) (from_ to_ : Nat → Prop) : Prop where
  source : ∀ id, from_ id ↔ ∃ num < row.num_primeid_digit_from k, row.primeid_digit_from num = id
  target : ∀ id, to_ id ↔ ∃ num < row.num_primeid_digit_to k, row.primeid_digit_to num = id
  sourcePlace : ∀ num < row.num_primeid_digit_from k,
    row.pos_in_digit (row.primeid_digit_from num) = num
  targetPlace : ∀ num < row.num_primeid_digit_to k,
    row.pos_in_digit (row.primeid_digit_to num) = num

/-- The entries of a leading part are its members, and each has its own place. -/
theorem leading_entries {kept ids : List Nat} {table pos : Nat → Nat} (leading : kept <+: ids)
    (distinct : ids.Nodup) (entry : ∀ num < kept.length, table num = ids.getD num 0)
    (place : ∀ id ∈ kept, pos id = ids.idxOf id) :
    (∀ id, id ∈ kept ↔ ∃ num < kept.length, table num = id) ∧
      ∀ num < kept.length, pos (table num) = num := by
  obtain ⟨rest, rfl⟩ := leading
  have own (num : Nat) (inside : num < kept.length) : table num = kept.get ⟨num, inside⟩ := by
    rw [entry num inside, List.getD_append _ _ _ _ inside, List.getD_eq_getElem _ _ inside,
      List.get_eq_getElem]
  constructor
  · intro id
    rw [List.mem_iff_get]
    constructor
    · rintro ⟨num, rfl⟩
      exact ⟨num, num.isLt, own num num.isLt⟩
    · rintro ⟨num, inside, rfl⟩
      exact ⟨⟨num, inside⟩, (own num inside).symm⟩
  · intro num inside
    have member : kept.get ⟨num, inside⟩ ∈ kept := List.get_mem _ _
    rw [own num inside, place _ member, List.idxOf_append_of_mem member, List.get_eq_getElem]
    exact (List.nodup_append.mp distinct).1.idxOf_getElem num inside

/-- Rows that describe the lists hold exactly their primes. -/
theorem Describes.lists {L : Nat} {DECOMP DIGIT : List Nat} {k : Nat} {row : DigitRow}
    (ordered : Ordered L DECOMP DIGIT) (describes : Describes L DECOMP DIGIT k row) :
    row.Lists k (fun id => id ∈ DECOMP ∧ id ≤ k) (fun id => id ∈ DIGIT ∧ (id ≤ k ∨ L ≤ id)) := by
  obtain ⟨source, sourcePlace⟩ := leading_entries (ordered.fromLeads k) ordered.fromDistinct
    describes.fromEntry describes.fromPlace
  obtain ⟨target, targetPlace⟩ := leading_entries (ordered.toLeads k) ordered.toDistinct
    describes.toEntry describes.toPlace
  rw [← describes.fromCount] at source sourcePlace
  rw [← describes.toCount] at target targetPlace
  refine ⟨fun id => ?_, fun id => ?_, sourcePlace, targetPlace⟩
  · rw [← source, List.mem_filter, decide_eq_true_eq]
  · rw [← target, List.mem_filter, decide_eq_true_eq]

end DigitRow

end Fideslib.Registry
