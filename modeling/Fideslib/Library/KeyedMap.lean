/-
This file measures finite keyed maps by the weights of their entries.
-/

import Mathlib

namespace KeyedMap

variable {Key Value : Type}

/-- The total adds one weight for every entry of the map. -/
def total (weight : Value → Nat) (map : AList fun _ : Key => Value) : Nat :=
  (map.entries.map fun entry => weight entry.2).sum

variable [DecidableEq Key]

/-- One lookup splits the weight of an entry list. -/
theorem sum_eq_lookup_add_kerase (weight : Value → Nat) (key : Key)
    (entries : List (Sigma fun _ : Key => Value)) :
    (entries.map fun entry => weight entry.2).sum =
      ((entries.dlookup key).elim 0 weight) +
        ((entries.kerase key).map fun entry => weight entry.2).sum := by
  induction entries with
  | nil => rfl
  | cons head tail ih =>
      by_cases same : key = head.1
      · subst same
        rw [List.dlookup_cons_eq, List.kerase_cons_eq rfl]
        rfl
      · rw [List.dlookup_cons_ne _ _ same, List.kerase_cons_ne same, List.map_cons, List.sum_cons,
          List.map_cons, List.sum_cons, ih]
        omega

/-- An insertion replaces the weight stored under its key. -/
theorem total_insert (weight : Value → Nat) (key : Key) (value : Value)
    (map : AList fun _ : Key => Value) :
    total weight (map.insert key value) + (map.lookup key).elim 0 weight =
      total weight map + weight value := by
  have split := sum_eq_lookup_add_kerase weight key map.entries
  simp only [total, AList.entries_insert, List.map_cons, List.sum_cons, AList.lookup] at split ⊢
  omega

/-- A new key adds its own weight. -/
theorem total_insert_new (weight : Value → Nat) {key : Key} (value : Value)
    {map : AList fun _ : Key => Value} (fresh : map.lookup key = none) :
    total weight (map.insert key value) = total weight map + weight value := by
  simpa only [fresh, Option.elim_none, Nat.add_zero] using total_insert weight key value map

/-- A replaced value gives its weight back. -/
theorem total_insert_old (weight : Value → Nat) {key : Key} {old : Value} (value : Value)
    {map : AList fun _ : Key => Value} (present : map.lookup key = some old) :
    total weight (map.insert key value) + weight old = total weight map + weight value := by
  simpa only [present, Option.elim_some] using total_insert weight key value map

/-- Every stored weight is part of the total. -/
theorem weight_le_total (weight : Value → Nat) {key : Key} {value : Value}
    {map : AList fun _ : Key => Value} (present : map.lookup key = some value) :
    weight value ≤ total weight map := by
  have split := sum_eq_lookup_add_kerase weight key map.entries
  have stored : map.entries.dlookup key = some value := present
  rw [stored, Option.elim_some] at split
  unfold total
  omega

/-- An erasure takes the stored weight away. -/
theorem total_erase (weight : Value → Nat) (key : Key) (map : AList fun _ : Key => Value) :
    total weight (map.erase key) + (map.lookup key).elim 0 weight = total weight map := by
  have split := sum_eq_lookup_add_kerase weight key map.entries
  simp only [total, AList.erase, AList.lookup] at split ⊢
  omega

/-- A map without any key has no weight. -/
theorem total_of_empty (weight : Value → Nat) {map : AList fun _ : Key => Value}
    (empty : ∀ key, map.lookup key = none) : total weight map = 0 := by
  unfold total
  cases entries : map.entries with
  | nil => rfl
  | cons head tail =>
      have absent := empty head.1
      rw [AList.lookup, entries, List.dlookup_cons_eq] at absent
      cases absent

/-- This insertion keeps an entry that is already there. -/
def emplace (key : Key) (value : Value) (map : AList fun _ : Key => Value) :
    AList fun _ : Key => Value :=
  if (map.lookup key).isSome then map else map.insert key value

/-- A new key takes the emplaced value. -/
theorem emplace_new {key : Key} {value : Value} {map : AList fun _ : Key => Value}
    (fresh : map.lookup key = none) : emplace key value map = map.insert key value := by
  rw [emplace, fresh, if_neg (by simp)]

/-- This map applies one function to every stored value. -/
def mapValues (change : Key → Value → Value) (map : AList fun _ : Key => Value) :
    AList fun _ : Key => Value where
  entries := map.entries.map fun entry => ⟨entry.1, change entry.1 entry.2⟩
  nodupKeys := by
    have same : (map.entries.map fun entry => (⟨entry.1, change entry.1 entry.2⟩ :
        Sigma fun _ : Key => Value)).keys = map.entries.keys := by
      simp [List.keys, Function.comp_def]
    rw [List.NodupKeys, same]
    exact map.nodupKeys

/-- A lookup sees the changed value. -/
@[simp] theorem lookup_mapValues (change : Key → Value → Value)
    (map : AList fun _ : Key => Value) (key : Key) :
    (mapValues change map).lookup key = (map.lookup key).map (change key) :=
  List.dlookup_map₂ (f := fun key value => change key value) key

/-- This map applies one partial function to every stored value. -/
def traverse (change : Value → Option Value) (map : AList fun _ : Key => Value) :
    Option (AList fun _ : Key => Value) :=
  if ∀ entry ∈ map.entries, (change entry.2).isSome then
    some (mapValues (fun _ value => (change value).getD value) map)
  else none

theorem mem_entries_iff (map : AList fun _ : Key => Value) (key : Key) (value : Value) :
    ⟨key, value⟩ ∈ map.entries ↔ map.lookup key = some value :=
  (List.mem_dlookup_iff map.nodupKeys).symm

/-- The partial map succeeds exactly when it succeeds on every stored value. -/
theorem traverse_isSome_iff (change : Value → Option Value) (map : AList fun _ : Key => Value) :
    (traverse change map).isSome ↔
      ∀ key value, map.lookup key = some value → (change value).isSome := by
  unfold traverse
  constructor
  · intro success key value present
    split at success
    case isTrue complete => exact complete ⟨key, value⟩ ((mem_entries_iff map key value).mpr present)
    case isFalse => simp at success
  · intro all
    have complete : ∀ entry ∈ map.entries, (change entry.2).isSome := fun entry member =>
      all entry.1 entry.2 ((mem_entries_iff map _ _).mp member)
    rw [if_pos complete]
    rfl

/-- A successful partial map keeps every key and changes every stored value. -/
theorem traverse_lookup_cases {change : Value → Option Value}
    {map result : AList fun _ : Key => Value} (success : traverse change map = some result)
    (key : Key) :
    (map.lookup key = none ∧ result.lookup key = none) ∨
      ∃ old new, map.lookup key = some old ∧ result.lookup key = some new ∧
        change old = some new := by
  unfold traverse at success
  split at success
  case isFalse => cases success
  case isTrue complete =>
    cases success
    rw [lookup_mapValues]
    cases stored : map.lookup key with
    | none => exact Or.inl ⟨rfl, rfl⟩
    | some old =>
        have defined := complete ⟨key, old⟩ ((mem_entries_iff map key old).mpr stored)
        obtain ⟨new, computed⟩ := Option.isSome_iff_exists.mp defined
        exact Or.inr ⟨old, new, rfl, by simp [computed], computed⟩

/-- An insertion decides the lookup of its own key. -/
theorem lookup_insert_eq (key other : Key) (value : Value) (map : AList fun _ : Key => Value) :
    (map.insert key value).lookup other = if other = key then some value else map.lookup other := by
  split
  case isTrue same =>
    subst same
    exact AList.lookup_insert map
  case isFalse different => exact AList.lookup_insert_ne different

/-- An entry after an insertion is the new one, or it stands under another key. -/
theorem lookup_insert_cases {key other : Key} {value found : Value}
    {map : AList fun _ : Key => Value} (there : (map.insert key value).lookup other = some found) :
    other = key ∧ value = found ∨ other ≠ key ∧ map.lookup other = some found := by
  rw [lookup_insert_eq] at there
  split at there
  case isTrue same => exact Or.inl ⟨same, Option.some.inj there⟩
  case isFalse different => exact Or.inr ⟨different, there⟩

/-- A removal only hides its own key. -/
theorem lookup_erase_eq (key other : Key) (map : AList fun _ : Key => Value) :
    (map.erase key).lookup other = if other = key then none else map.lookup other := by
  split
  case isTrue same =>
    subst same
    exact AList.lookup_erase other map
  case isFalse different => exact AList.lookup_erase_ne different

end KeyedMap
