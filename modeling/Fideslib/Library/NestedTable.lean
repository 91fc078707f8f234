/-
This file relates a table of rows to the inverse table of its places.
-/

import Mathlib.Data.List.Nodup
import Mathlib.Data.List.Basic
import Mathlib.Tactic

namespace NestedTable

variable {Item Key Value : Type}

/-- This is the item at one place of one row. -/
def entry (rows : List (List Item)) (row place : Nat) : Option Item :=
  rows[row]?.bind fun items => items[place]?

@[simp] theorem entry_cons_zero (items : List Item) (rows : List (List Item)) (place : Nat) :
    entry (items :: rows) 0 place = items[place]? := rfl

@[simp] theorem entry_cons_succ (items : List Item) (rows : List (List Item)) (row place : Nat) :
    entry (items :: rows) (row + 1) place = entry rows row place := rfl

@[simp] theorem entry_nil (row place : Nat) : entry ([] : List (List Item)) row place = none := rfl

/-- The items of the rows are those that have a place. -/
theorem mem_flatten_iff {rows : List (List Item)} {item : Item} :
    item ∈ rows.flatten ↔ ∃ row place, entry rows row place = some item := by
  induction rows with
  | nil => simp
  | cons items rows ih =>
      rw [List.flatten_cons, List.mem_append, ih, List.mem_iff_getElem?]
      constructor
      · rintro (⟨place, here⟩ | ⟨row, place, later⟩)
        · exact ⟨0, place, here⟩
        · exact ⟨row + 1, place, later⟩
      · rintro ⟨row, place, found⟩
        cases row with
        | zero => exact Or.inl ⟨place, found⟩
        | succ row => exact Or.inr ⟨row, place, found⟩

/-- Items with distinct keys have one place each. -/
theorem place_unique {rows : List (List Item)} {key : Item → Key}
    (distinct : (rows.flatten.map key).Nodup) {row place otherRow otherPlace : Nat}
    {first second : Item} (here : entry rows row place = some first)
    (there : entry rows otherRow otherPlace = some second) (same : key first = key second) :
    row = otherRow ∧ place = otherPlace := by
  induction rows generalizing row otherRow with
  | nil => cases here
  | cons items rows ih =>
      rw [List.flatten_cons, List.map_append, List.nodup_append] at distinct
      obtain ⟨inside, later, apart⟩ := distinct
      cases row with
      | zero =>
          have member : first ∈ items := List.mem_of_getElem? here
          cases otherRow with
          | zero =>
              refine ⟨rfl, ?_⟩
              have left : (items.map key)[place]? = some (key first) := by
                rw [List.getElem?_map, show items[place]? = some first from here]
                rfl
              have right : (items.map key)[otherPlace]? = some (key first) := by
                rw [List.getElem?_map, show items[otherPlace]? = some second from there, same]
                rfl
              have bound := (List.getElem?_eq_some_iff.mp left).1
              exact (List.getElem?_inj bound inside).mp (left.trans right.symm)
          | succ otherRow =>
              have listed : second ∈ rows.flatten := mem_flatten_iff.mpr ⟨_, _, there⟩
              exact absurd same
                (apart _ (List.mem_map_of_mem member) _ (List.mem_map_of_mem listed))
      | succ row =>
          have listed : first ∈ rows.flatten := mem_flatten_iff.mpr ⟨_, _, here⟩
          cases otherRow with
          | zero =>
              have member : second ∈ items := List.mem_of_getElem? there
              exact absurd same.symm
                (apart _ (List.mem_map_of_mem member) _ (List.mem_map_of_mem listed))
          | succ otherRow =>
              obtain ⟨sameRow, samePlace⟩ := ih later here there
              exact ⟨by rw [sameRow], samePlace⟩

/-- The places of a table in the order of its rows. -/
def places (rows : List (List Item)) : List ((Nat × Nat) × Item) :=
  rows.zipIdx.flatMap fun row => row.1.zipIdx.map fun item => ((row.2, item.2), item.1)

theorem mem_places {rows : List (List Item)} {row place : Nat} {item : Item} :
    ((row, place), item) ∈ places rows ↔ entry rows row place = some item := by
  simp only [places, List.mem_flatMap, List.mem_map, Prod.exists, Prod.mk.injEq, entry,
    Option.bind_eq_some_iff, List.mem_zipIdx_iff_getElem?]
  constructor
  · rintro ⟨items, number, found, other, position, inside, ⟨rfl, rfl⟩, rfl⟩
    exact ⟨items, found, inside⟩
  · rintro ⟨items, found, inside⟩
    exact ⟨items, row, found, item, place, inside, ⟨rfl, rfl⟩, rfl⟩

theorem places_items (rows : List (List Item)) :
    (places rows).map Prod.snd = rows.flatten := by
  have row (items : List Item × Nat) :
      (items.1.zipIdx.map fun item => ((items.2, item.2), item.1)).map Prod.snd = items.1 := by
    rw [List.map_map]
    exact List.zipIdx_map_fst 0 items.1
  rw [places, List.map_flatMap]
  simp only [row]
  rw [List.flatMap_def, List.zipIdx_map_fst]

/-- A table of values is filled write by write. -/
def fill (writes : List (Nat × Value)) (table : List Value) : List Value :=
  writes.foldl (fun table write => table.set write.1 write.2) table

@[simp] theorem length_fill (writes : List (Nat × Value)) (table : List Value) :
    (fill writes table).length = table.length := by
  induction writes generalizing table with
  | nil => rfl
  | cons write writes ih => rw [fill, List.foldl_cons, ← fill, ih, List.length_set]

theorem fill_untouched {writes : List (Nat × Value)} {position : Nat}
    (untouched : ∀ write ∈ writes, write.1 ≠ position) (table : List Value) :
    (fill writes table)[position]? = table[position]? := by
  induction writes generalizing table with
  | nil => rfl
  | cons write writes ih =>
      rw [fill, List.foldl_cons, ← fill, ih fun other member =>
        untouched other (List.mem_cons_of_mem _ member),
        List.getElem?_set_ne (untouched write List.mem_cons_self)]

/-- A position that is written once has the written value. -/
theorem fill_written {writes : List (Nat × Value)} (distinct : (writes.map Prod.fst).Nodup)
    {write : Nat × Value} (member : write ∈ writes) {table : List Value}
    (inside : write.1 < table.length) : (fill writes table)[write.1]? = some write.2 := by
  induction writes generalizing table with
  | nil => cases member
  | cons head writes ih =>
      rw [List.map_cons, List.nodup_cons] at distinct
      obtain ⟨fresh, later⟩ := distinct
      rw [fill, List.foldl_cons, ← fill]
      rcases List.mem_cons.mp member with rfl | rest
      · rw [fill_untouched]
        · exact List.getElem?_set_self inside
        · intro other listed same
          exact fresh (same ▸ List.mem_map_of_mem listed)
      · exact ih later rest (by rwa [List.length_set])

end NestedTable
