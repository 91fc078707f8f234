/-
This file lists the numbers in an interval and cuts memory regions into chunks of one size.
-/

import Mathlib.Data.List.Range
import Mathlib.Tactic
import Mathlib.Data.List.Nodup

namespace Intervals

/-- An initial segment of a range is described by its size. -/
theorem count_initial {P : Nat → Prop} [DecidablePred P] {n : Nat}
    (initial : ∀ i j, i ≤ j → j < n → P j → P i) {i : Nat} (inside : i < n) :
    P i ↔ i < (List.range n).countP P := by
  induction n with
  | zero => exact absurd inside (Nat.not_lt_zero i)
  | succ n inductionHypothesis =>
      have count : (List.range n).countP P ≤ (List.range n).length := List.countP_le_length
      rw [List.length_range] at count
      rw [List.range_succ, List.countP_append, List.countP_singleton]
      by_cases last : P n
      · have all : ∀ j ∈ List.range n, decide (P j) = true := fun j mem =>
          decide_eq_true (initial j n (List.mem_range.mp mem).le (Nat.lt_succ_self n) last)
        have here := initial i n (Nat.le_of_lt_succ inside) (Nat.lt_succ_self n) last
        rw [List.countP_eq_length.mpr all, List.length_range, if_pos (decide_eq_true last)]
        exact iff_of_true here inside
      · rw [if_neg (by simpa using last), Nat.add_zero]
        rcases Nat.lt_or_eq_of_le (Nat.le_of_lt_succ inside) with earlier | same
        · exact inductionHypothesis (fun j k order bound => initial j k order (by omega)) earlier
        · rw [same]
          exact iff_of_false last (by omega)

/-- A prefix is taken up to the first entry without the property. -/
theorem takeWhile_split {α : Type} {P : α → Bool} {kept rest : List α}
    (holds : ∀ a ∈ kept, P a = true) (fails : ∀ a ∈ rest, ¬P a = true) :
    (kept ++ rest).takeWhile P = kept := by
  rw [List.takeWhile_append_of_pos holds]
  cases rest with
  | nil => exact List.append_nil kept
  | cons a rest =>
      rw [List.takeWhile_cons_of_neg (fails a List.mem_cons_self), List.append_nil]

/-- The prefix of an initial segment is the segment. -/
theorem takeWhile_initial {P : Nat → Prop} [DecidablePred P] {n : Nat}
    (initial : ∀ i j, i ≤ j → j < n → P j → P i) {i : Nat} (inside : i < n) :
    i < ((List.range n).takeWhile P).length ↔ P i := by
  have count : (List.range n).countP P ≤ (List.range n).length := List.countP_le_length
  rw [List.length_range] at count
  rw [count_initial initial inside]
  have within := fun {j : Nat} (bound : j < n) => count_initial initial bound
  generalize (List.range n).countP P = size at count within ⊢
  obtain ⟨rest, rfl⟩ := Nat.exists_eq_add_of_le count
  rw [List.range_add, takeWhile_split, List.length_range]
  · intro j mem
    have below := List.mem_range.mp mem
    exact decide_eq_true ((within (by omega)).mpr below)
  · intro j mem
    obtain ⟨offset, bound, rfl⟩ := List.mem_map.mp mem
    have beyond := List.mem_range.mp bound
    rw [decide_eq_true_eq, within (by omega)]
    omega

/-- An entry of a list over a range belongs to its index. -/
theorem range_entry {α : Type} {f : Nat → α} {n i : Nat} {value : α} :
    ((List.range n).map f)[i]? = some value ↔ i < n ∧ f i = value := by
  rw [List.getElem?_map, Option.map_eq_some_iff]
  constructor
  · rintro ⟨j, found, rfl⟩
    obtain ⟨bound, same⟩ := List.getElem?_eq_some_iff.mp found
    rw [List.getElem_range] at same
    rw [List.length_range] at bound
    exact ⟨bound, congrArg f same⟩
  · rintro ⟨bound, rfl⟩
    exact ⟨i, List.getElem?_range bound, rfl⟩

/-- These are the entries of a range inside an interval. -/
theorem filter_interval (start size n : Nat) :
    (List.range n).filter (fun i => start ≤ i ∧ i < start + size) =
      List.range' start (min size (n - start)) := by
  induction n with
  | zero => simp
  | succ n inductionHypothesis =>
      rw [List.range_succ, List.filter_append, inductionHypothesis]
      by_cases inside : start ≤ n ∧ n < start + size
      · rw [List.filter_singleton, decide_eq_true inside, cond_true,
          show min size (n + 1 - start) = min size (n - start) + 1 by omega, List.range'_1_concat,
          show start + min size (n - start) = n by omega]
      · rw [List.filter_singleton, decide_eq_false inside, cond_false, List.append_nil]
        congr 1
        omega

/-- These are the entries of a range outside an interval. -/
theorem filter_outside (start size n : Nat) :
    (List.range n).filter (fun i => ¬(start ≤ i ∧ i < start + size)) =
      List.range (min start n) ++ List.range' (start + size) (n - (start + size)) := by
  induction n with
  | zero => simp
  | succ n inductionHypothesis =>
      rw [List.range_succ, List.filter_append, inductionHypothesis, List.filter_singleton]
      by_cases inside : start ≤ n ∧ n < start + size
      · rw [decide_eq_false (not_not_intro inside), cond_false, List.append_nil,
          show min start (n + 1) = min start n by omega,
          show n + 1 - (start + size) = n - (start + size) by omega]
      · rw [decide_eq_true inside, cond_true]
        rcases Nat.lt_or_ge n start with before | after
        · rw [show n - (start + size) = 0 by omega, show n + 1 - (start + size) = 0 by omega,
            show min start n = n by omega, show min start (n + 1) = n + 1 by omega, List.range_succ]
          simp
        · rw [show min start (n + 1) = min start n by omega,
            show n + 1 - (start + size) = n - (start + size) + 1 by omega, List.range'_1_concat,
            show start + size + (n - (start + size)) = n by omega, List.append_assoc]

/-- The entries of an interval up to a bound are counted. -/
theorem countP_interval (start size k : Nat) :
    (List.range' start size).countP (fun id => id ≤ k) = min size (k + 1 - start) := by
  induction size with
  | zero => simp
  | succ size inductionHypothesis =>
      rw [List.range'_1_concat, List.countP_append, inductionHypothesis, List.countP_singleton]
      by_cases below : start + size ≤ k
      · rw [if_pos (decide_eq_true below)]
        omega
      · rw [if_neg (by simpa using below)]
        omega

end Intervals

namespace MemoryRegion

/-- A region starts at an address and holds a number of bytes. -/
structure Region where
  base : Nat
  bytes : Nat
deriving DecidableEq, Repr

namespace Region

/-- Two regions share no byte. -/
def Apart (first second : Region) : Prop :=
  first.base + first.bytes ≤ second.base ∨ second.base + second.bytes ≤ first.base

/-- A region holds an address. -/
def Holds (region : Region) (address : Nat) : Prop :=
  region.base ≤ address ∧ address < region.base + region.bytes

instance (region : Region) (address : Nat) : Decidable (region.Holds address) :=
  inferInstanceAs (Decidable (_ ∧ _))

instance (first second : Region) : Decidable (first.Apart second) :=
  inferInstanceAs (Decidable (_ ∨ _))

/-- One region lies inside another one. -/
def Within (inner outer : Region) : Prop :=
  outer.base ≤ inner.base ∧ inner.base + inner.bytes ≤ outer.base + outer.bytes

/-- The chunks of a region follow each other from its base. -/
def chunks (size : Nat) (region : Region) : List Nat :=
  (List.range (region.bytes / size)).map fun index => region.base + index * size

variable {size address : Nat} {region first second : Region}

instance : Std.Symm Apart := ⟨fun _ _ => Or.symm⟩

theorem Apart.symm (apart : first.Apart second) : second.Apart first := Or.symm apart

/-- Regions inside separate regions are separate. -/
theorem Apart.within (apart : first.Apart second) {inner other : Region}
    (inside : inner.Within first) (outside : other.Within second) : inner.Apart other := by
  unfold Apart Within at *
  omega

theorem Apart.not_holds (apart : first.Apart second) (holds : first.Holds address) :
    ¬second.Holds address := by
  unfold Apart Holds at *
  omega

theorem length_chunks (size : Nat) (region : Region) :
    (region.chunks size).length = region.bytes / size := by
  rw [chunks, List.length_map, List.length_range]

theorem mem_chunks : address ∈ region.chunks size ↔
    ∃ index < region.bytes / size, address = region.base + index * size := by
  simp only [chunks, List.mem_map, List.mem_range, eq_comm]

/-- A chunk lies inside its region. -/
theorem chunk_within (listed : address ∈ region.chunks size) :
    (⟨address, size⟩ : Region).Within region := by
  obtain ⟨index, below, rfl⟩ := mem_chunks.mp listed
  have room : (index + 1) * size ≤ region.bytes :=
    (Nat.mul_le_mul_right size below).trans (Nat.div_mul_le_self _ _)
  rw [Nat.add_mul, Nat.one_mul] at room
  unfold Within
  dsimp only
  omega

theorem chunk_holds (positive : 0 < size) (listed : address ∈ region.chunks size) :
    region.Holds address := by
  have inside := chunk_within listed
  unfold Within at inside
  unfold Holds
  dsimp only at inside
  omega

/-- Two chunks of one region are the same or share no byte. -/
theorem chunks_apart {other : Nat} (listed : address ∈ region.chunks size)
    (otherListed : other ∈ region.chunks size) (different : address ≠ other) :
    (⟨address, size⟩ : Region).Apart ⟨other, size⟩ := by
  obtain ⟨index, -, rfl⟩ := mem_chunks.mp listed
  obtain ⟨place, -, rfl⟩ := mem_chunks.mp otherListed
  unfold Apart
  dsimp only
  rcases lt_trichotomy index place with before | same | after
  · have step : (index + 1) * size ≤ place * size := Nat.mul_le_mul_right size before
    rw [Nat.add_mul, Nat.one_mul] at step
    omega
  · rw [same] at different
    exact absurd rfl different
  · have step : (place + 1) * size ≤ index * size := Nat.mul_le_mul_right size after
    rw [Nat.add_mul, Nat.one_mul] at step
    omega

theorem chunks_nodup (positive : 0 < size) (region : Region) : (region.chunks size).Nodup := by
  refine List.Nodup.map (fun index place same => ?_) List.nodup_range
  exact Nat.eq_of_mul_eq_mul_right positive (Nat.add_left_cancel same)

/-- The chunks of separate regions are different addresses. -/
theorem flatMap_chunks_nodup (positive : 0 < size) {regions : List Region}
    (separate : regions.Pairwise Apart) : (regions.flatMap (chunks size)).Nodup := by
  rw [List.nodup_flatMap]
  refine ⟨fun region _ => chunks_nodup positive region, separate.imp ?_⟩
  intro first second apart address listed otherListed
  exact apart.not_holds (chunk_holds positive listed) (chunk_holds positive otherListed)

/-- A region of a separate list holds the chunks it was cut into and no others. -/
theorem filter_chunks (positive : 0 < size) {regions : List Region}
    (separate : regions.Pairwise Apart) (listed : region ∈ regions) :
    (regions.flatMap (chunks size)).filter (fun address => region.Holds address) =
      region.chunks size := by
  induction regions with
  | nil => cases listed
  | cons head rest inductionHypothesis =>
      obtain ⟨headApart, restApart⟩ := List.pairwise_cons.mp separate
      rw [List.flatMap_cons, List.filter_append]
      rcases List.mem_cons.mp listed with rfl | later
      · have own : (region.chunks size).filter (fun address => region.Holds address) =
            region.chunks size :=
          List.filter_eq_self.mpr fun address chunk => decide_eq_true (chunk_holds positive chunk)
        have others : (rest.flatMap (chunks size)).filter (fun address => region.Holds address) =
            [] := by
          rw [List.filter_eq_nil_iff]
          intro address chunk holds
          obtain ⟨other, member, cut⟩ := List.mem_flatMap.mp chunk
          exact (headApart other member).not_holds (of_decide_eq_true holds)
            (chunk_holds positive cut)
        rw [own, others, List.append_nil]
      · have outside : (head.chunks size).filter (fun address => region.Holds address) = [] := by
          rw [List.filter_eq_nil_iff]
          intro address chunk holds
          exact (headApart region later).symm.not_holds (of_decide_eq_true holds)
            (chunk_holds positive chunk)
        rw [outside, List.nil_append, inductionHypothesis restApart later]

/-- The first region of a separate list that holds an address is the only one. -/
theorem findIdx?_holds {regions : List Region} (separate : regions.Pairwise Apart)
    {place : Nat} (found : regions[place]? = some region) :
    regions.findIdx? (fun region => region.Holds address) = some place ↔
      region.Holds address := by
  obtain ⟨bound, rfl⟩ := List.getElem?_eq_some_iff.mp found
  rw [List.findIdx?_eq_some_iff_getElem]
  constructor
  · rintro ⟨_, holds, -⟩
    exact of_decide_eq_true holds
  · intro holds
    refine ⟨bound, decide_eq_true holds, fun earlier before => ?_⟩
    have apart := List.pairwise_iff_getElem.mp separate earlier place (before.trans bound) bound
      before
    simpa using apart.symm.not_holds holds

end Region
end MemoryRegion
