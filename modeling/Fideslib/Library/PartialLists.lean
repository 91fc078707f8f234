/-
This file gives the rules for lists of steps that may fail and for the rounds of a block over a grid.
-/

import Mathlib.Data.List.Basic
import Mathlib.Data.List.Nodup
import Mathlib.Tactic

namespace PartialLists

variable {Item Result State Key Other : Type}

theorem foldlM_eq_foldl {visit : State → Item → Option State} {pure : State → Item → State}
    {items : List Item} (state : State)
    (visits : ∀ item ∈ items, ∀ before, visit before item = some (pure before item)) :
    items.foldlM visit state = some (items.foldl pure state) := by
  induction items generalizing state with
  | nil => rfl
  | cons item rest ih =>
      rw [List.foldlM_cons, visits item List.mem_cons_self]
      exact ih (pure state item) fun other member => visits other (List.mem_cons_of_mem _ member)

/-- One step that fails in every state makes the whole fold fail. -/
theorem foldlM_eq_none {visit : State → Item → Option State} {items : List Item} {item : Item}
    (state : State) (member : item ∈ items) (fails : ∀ before, visit before item = none) :
    items.foldlM visit state = none := by
  induction items generalizing state with
  | nil => cases member
  | cons head rest ih =>
      rw [List.foldlM_cons]
      rcases List.mem_cons.mp member with rfl | inside
      · rw [fails]
        rfl
      · cases visit state head with
        | none => rfl
        | some next => exact ih next inside

theorem mapM_eq_map {visit : Item → Option Result} {pure : Item → Result} {items : List Item}
    (visits : ∀ item ∈ items, visit item = some (pure item)) :
    items.mapM visit = some (items.map pure) := by
  induction items with
  | nil => rfl
  | cons item rest ih =>
      rw [List.mapM_cons, visits item List.mem_cons_self,
        ih fun other member => visits other (List.mem_cons_of_mem _ member)]
      rfl

/-- A list of set pointers leads to its items. -/
theorem mapM_pointers (items : List Item) : (items.map some).mapM id = some items := by
  induction items with
  | nil => rfl
  | cons item rest ih =>
      rw [List.map_cons, List.mapM_cons, ih]
      rfl

theorem mapM_eq_none {visit : Item → Option Result} {items : List Item} {item : Item}
    (member : item ∈ items) (fails : visit item = none) : items.mapM visit = none := by
  induction items with
  | nil => cases member
  | cons head rest ih =>
      rw [List.mapM_cons]
      rcases List.mem_cons.mp member with rfl | inside
      · rw [fails]
        rfl
      · rw [ih inside]
        cases visit head <;> rfl

theorem mapM_succeeds {visit : Item → Option Result} {items : List Item}
    (visits : ∀ item ∈ items, (visit item).isSome) : ∃ results, items.mapM visit = some results := by
  induction items with
  | nil => exact ⟨[], rfl⟩
  | cons item rest ih =>
      obtain ⟨result, now⟩ := Option.isSome_iff_exists.mp (visits item List.mem_cons_self)
      obtain ⟨results, later⟩ := ih fun other member => visits other (List.mem_cons_of_mem _ member)
      exact ⟨result :: results, by rw [List.mapM_cons, now, later]; rfl⟩

/-- The results stand in the order of the items. -/
theorem mapM_getElem? {visit : Item → Option Result} {items : List Item} {results : List Result}
    (ran : items.mapM visit = some results) (place : Nat) :
    results[place]? = items[place]?.bind visit := by
  induction items generalizing results place with
  | nil =>
      cases ran
      rfl
  | cons item rest ih =>
      rw [List.mapM_cons] at ran
      obtain ⟨result, now, later⟩ := Option.bind_eq_some_iff.mp ran
      obtain ⟨tail, ranTail, same⟩ := Option.bind_eq_some_iff.mp later
      cases same
      cases place with
      | zero => simpa using now.symm
      | succ place => simpa using ih ranTail place

theorem mapM_length {visit : Item → Option Result} {items : List Item} {results : List Result}
    (ran : items.mapM visit = some results) : results.length = items.length := by
  induction items generalizing results with
  | nil =>
      cases ran
      rfl
  | cons item rest ih =>
      rw [List.mapM_cons] at ran
      obtain ⟨result, now, later⟩ := Option.bind_eq_some_iff.mp ran
      obtain ⟨tail, ranTail, same⟩ := Option.bind_eq_some_iff.mp later
      cases same
      rw [List.length_cons, List.length_cons, ih ranTail]

theorem mem_mapM {visit : Item → Option Result} {items : List Item} {results : List Result}
    (ran : items.mapM visit = some results) {result : Result} :
    result ∈ results ↔ ∃ item ∈ items, visit item = some result := by
  constructor
  · intro member
    obtain ⟨place, inside⟩ := List.getElem?_of_mem member
    rw [mapM_getElem? ran] at inside
    obtain ⟨item, here, visited⟩ := Option.bind_eq_some_iff.mp inside
    exact ⟨item, List.mem_of_getElem? here, visited⟩
  · rintro ⟨item, member, visited⟩
    obtain ⟨place, inside⟩ := List.getElem?_of_mem member
    have result := mapM_getElem? ran place
    rw [inside, Option.bind_some, visited] at result
    exact List.mem_of_getElem? result

/-- The results carry the keys of their items. -/
theorem mapM_map {visit : Item → Option Result} {items : List Item} {results : List Result}
    {out : Result → Key} {key : Item → Key}
    (same : ∀ item result, visit item = some result → out result = key item)
    (ran : items.mapM visit = some results) : results.map out = items.map key := by
  induction items generalizing results with
  | nil =>
      cases ran
      rfl
  | cons item rest ih =>
      rw [List.mapM_cons] at ran
      obtain ⟨result, now, later⟩ := Option.bind_eq_some_iff.mp ran
      obtain ⟨tail, ranTail, equal⟩ := Option.bind_eq_some_iff.mp later
      cases equal
      rw [List.map_cons, List.map_cons, ih ranTail, same item result now]

/-- Two lists that are related to a third one are related to each other. -/
theorem forall₂_of_common {items : List Item} {results : List Result} {others : List Other}
    {first : Item → Result → Prop} {second : Item → Other → Prop} {both : Result → Other → Prop}
    (meet : ∀ item result other, first item result → second item other → both result other)
    (left : List.Forall₂ first items results) (right : List.Forall₂ second items others) :
    List.Forall₂ both results others := by
  induction left generalizing others with
  | nil =>
      cases right
      exact List.Forall₂.nil
  | cons related _ ih =>
      cases right with
      | cons other rest => exact List.Forall₂.cons (meet _ _ _ related other) (ih rest)

/-- Visits that all succeed give one related result for each item. -/
theorem mapM_forall₂ {visit : Item → Option Result} {items : List Item}
    {related : Item → Result → Prop}
    (visits : ∀ item ∈ items, ∃ result, visit item = some result ∧ related item result) :
    ∃ results, items.mapM visit = some results ∧ List.Forall₂ related items results := by
  induction items with
  | nil => exact ⟨[], rfl, List.Forall₂.nil⟩
  | cons item rest ih =>
      obtain ⟨result, visited, same⟩ := visits item List.mem_cons_self
      obtain ⟨results, ran, others⟩ := ih fun other member =>
        visits other (List.mem_cons_of_mem item member)
      refine ⟨result :: results, ?_, List.Forall₂.cons same others⟩
      rw [List.mapM_cons, visited, ran]
      rfl

/-- Steps that only look at the numbers run over these numbers. -/
theorem mapM_zipIdx_eq_map {visit : Item × Nat → Option Result} {pure : Nat → Result}
    {items : List Item} (visits : ∀ item ∈ items.zipIdx, visit item = some (pure item.2)) :
    items.zipIdx.mapM visit = some ((List.range items.length).map pure) := by
  have numbers : items.zipIdx.map Prod.snd = List.range items.length := by
    rw [List.zipIdx_map_snd, List.range_eq_range']
  rw [mapM_eq_map visits, ← numbers, List.map_map]
  rfl

/-- Numbered visits give results that are related to what belongs to the numbers. -/
theorem mapM_zipIdx_forall₂ {visit : Item × Nat → Option Result} {items : List Item}
    {related : Other → Result → Prop} {other : Nat → Other}
    (visits : ∀ item ∈ items.zipIdx, ∃ result, visit item = some result ∧
      related (other item.2) result) :
    ∃ results, items.zipIdx.mapM visit = some results ∧
      List.Forall₂ related ((List.range items.length).map other) results := by
  have each : ∀ item ∈ items.zipIdx, (visit item).isSome := by
    intro item member
    obtain ⟨result, visited, -⟩ := visits item member
    exact Option.isSome_iff_exists.mpr ⟨result, visited⟩
  obtain ⟨results, ran⟩ := mapM_succeeds each
  have length : results.length = items.length := by rw [mapM_length ran, List.length_zipIdx]
  refine ⟨results, ran, List.forall₂_iff_get.mpr ⟨?_, ?_⟩⟩
  · rw [List.length_map, List.length_range, length]
  · intro place first second
    have numbered : items.zipIdx[place]? = some (items.get ⟨place, length ▸ second⟩, place) := by
      rw [List.getElem?_zipIdx, List.getElem?_eq_getElem (length ▸ second), Nat.zero_add]
      rfl
    obtain ⟨result, visited, same⟩ := visits _ (List.mem_of_getElem? numbered)
    have found := mapM_getElem? ran place
    rw [numbered, Option.bind_some, visited] at found
    obtain ⟨inside, own⟩ := List.getElem?_eq_some_iff.mp found
    rw [List.get_eq_getElem, List.get_eq_getElem, List.getElem_map, List.getElem_range, own]
    exact same

/-- One item after the other is visited with its place. -/
def visitInOrder (visit : Nat → Item → State → Option State) :
    Nat → List Item → State → Option State
  | _, [], state => some state
  | place, item :: rest, state => do
      let next ← visit place item state
      visitInOrder visit (place + 1) rest next

/-- A loop succeeds and keeps what every single visit keeps. -/
theorem visitInOrder_succeeds {visit : Nat → Item → State → Option State}
    (Keeps : Nat → State → Prop) {items : List Item} {start : Nat} {state : State}
    (begins : Keeps start state)
    (step : ∀ place item before, items[place]? = some item → Keeps (start + place) before →
      ∃ after, visit (start + place) item before = some after ∧ Keeps (start + place + 1) after) :
    ∃ final, visitInOrder visit start items state = some final ∧
      Keeps (start + items.length) final := by
  induction items generalizing start state with
  | nil => exact ⟨state, rfl, begins⟩
  | cons item rest ih =>
      obtain ⟨next, visited, kept⟩ := step 0 item state rfl begins
      obtain ⟨final, ran, done⟩ := ih kept fun place other before there keeps => by
        have shift : start + (place + 1) = start + 1 + place := by omega
        have next := step (place + 1) other before there
        rw [shift] at next
        exact next keeps
      refine ⟨final, ?_, ?_⟩
      · rw [visitInOrder]
        exact Option.bind_eq_some_iff.mpr ⟨next, visited, ran⟩
      · rw [List.length_cons, show start + (rest.length + 1) = start + 0 + 1 + rest.length by omega]
        exact done

/-- A loop that returns keeps what every visit that returns keeps. -/
theorem visitInOrder_keeps {visit : Nat → Item → State → Option State} (Keeps : State → Prop)
    {items : List Item} {start : Nat} {state final : State} (begins : Keeps state)
    (step : ∀ place item before after, visit place item before = some after → Keeps before →
      Keeps after)
    (ran : visitInOrder visit start items state = some final) : Keeps final := by
  induction items generalizing start state with
  | nil =>
      cases ran
      exact begins
  | cons item rest ih =>
      obtain ⟨next, visited, later⟩ := Option.bind_eq_some_iff.mp ran
      exact ih (step _ _ _ _ visited begins) later

theorem length_flatMap_const {part : Item → List Result} {items : List Item} {width : Nat}
    (each : ∀ item ∈ items, (part item).length = width) :
    (items.flatMap part).length = items.length * width := by
  induction items with
  | nil => simp
  | cons item rest ih =>
      rw [List.flatMap_cons, List.length_append, each item List.mem_cons_self,
        ih fun other member => each other (List.mem_cons_of_mem _ member), List.length_cons,
        Nat.succ_mul, add_comm]

/-- A place in rows of one width leads to its row and its column. -/
theorem getElem?_flatMap_const {part : Item → List Result} {items : List Item}
    {width row column : Nat} (each : ∀ item ∈ items, (part item).length = width)
    (inColumn : column < width) {item : Item} (inRow : items[row]? = some item) :
    (items.flatMap part)[row * width + column]? = (part item)[column]? := by
  induction items generalizing row with
  | nil => cases inRow
  | cons first rest ih =>
      have length := each first List.mem_cons_self
      rw [List.flatMap_cons]
      cases row with
      | zero =>
          cases inRow
          rw [Nat.zero_mul, Nat.zero_add, List.getElem?_append_left (by omega)]
      | succ row =>
          have later := ih (fun other member => each other (List.mem_cons_of_mem _ member)) inRow
          rw [Nat.succ_mul, show row * width + width + column = width + (row * width + column) by omega,
            List.getElem?_append_right (by omega), length, Nat.add_sub_cancel_left, later]

/-- Rows of one width stand one behind the other. -/
theorem getElem?_flatMap_range {part : Nat → List Result} {count width row column : Nat}
    (each : ∀ item < count, (part item).length = width) (inRow : row < count)
    (inColumn : column < width) :
    ((List.range count).flatMap part)[row * width + column]? = (part row)[column]? := by
  induction count with
  | zero => omega
  | succ count ih =>
      have before := length_flatMap_const fun item member =>
        each item (Nat.lt_succ_of_lt (List.mem_range.mp member))
      rw [List.length_range] at before
      rw [List.range_succ, List.flatMap_append, List.flatMap_cons, List.flatMap_nil,
        List.append_nil]
      rcases Nat.lt_succ_iff_lt_or_eq.mp inRow with earlier | rfl
      · have inside : row * width + column < count * width := by
          calc row * width + column < (row + 1) * width := by rw [Nat.add_mul, one_mul]; omega
            _ ≤ count * width := Nat.mul_le_mul_right _ earlier
        rw [List.getElem?_append_left (by rwa [before]),
          ih (fun item smaller => each item (Nat.lt_succ_of_lt smaller)) earlier]
      · rw [List.getElem?_append_right (by rw [before]; exact Nat.le_add_right _ _), before,
          Nat.add_sub_cancel_left]

/-- The parts of a concatenation have nothing in common when a key tells them apart. -/
theorem nodup_flatMap_of_key {part : Item → List Result} {items : List Item} (key : Result → Item)
    (distinct : items.Nodup) (each : ∀ item ∈ items, (part item).Nodup)
    (keyed : ∀ item ∈ items, ∀ result ∈ part item, key result = item) :
    (items.flatMap part).Nodup := by
  rw [List.nodup_flatMap]
  refine ⟨each, ?_⟩
  refine List.Pairwise.imp_of_mem ?_ distinct
  intro first second firstIn secondIn apart result inFirst inSecond
  exact apart ((keyed first firstIn result inFirst).symm.trans
    (keyed second secondIn result inSecond))

theorem nodup_map_of_key {part : Item → Result} {items : List Item} (key : Result → Item)
    (distinct : items.Nodup) (keyed : ∀ item ∈ items, key (part item) = item) :
    (items.map part).Nodup := by
  refine List.Nodup.map_on ?_ distinct
  intro first firstIn second secondIn same
  rw [← keyed first firstIn, same, keyed second secondIn]

/-- A fold that writes one value for each key holds the value at every key it writes. -/
theorem foldl_update_apply [DecidableEq Key] {slot : Item → Key} {value : Item → Result}
    {expected : Key → Result} {items : List Item} (table : Key → Result)
    (agrees : ∀ item ∈ items, value item = expected (slot item)) (key : Key) :
    items.foldl (fun table item => Function.update table (slot item) (value item)) table key =
      if key ∈ items.map slot then expected key else table key := by
  induction items generalizing table with
  | nil => simp
  | cons item rest ih =>
      rw [List.foldl_cons, ih _ fun other member => agrees other (List.mem_cons_of_mem _ member)]
      by_cases later : key ∈ rest.map slot
      · have whole : key ∈ (item :: rest).map slot := List.mem_cons_of_mem _ later
        rw [if_pos later, if_pos whole]
      · rw [if_neg later]
        by_cases now : key = slot item
        · have whole : key ∈ (item :: rest).map slot := by
            rw [now]
            exact List.mem_cons_self
          rw [if_pos whole, now, Function.update_self, agrees item List.mem_cons_self]
        · have outside : key ∉ (item :: rest).map slot := by
            intro member
            rcases List.mem_cons.mp member with same | inside
            · exact now same
            · exact later inside
          rw [if_neg outside, Function.update_of_ne now]

end PartialLists

namespace GridStride

/-- The rounds of a block below the bound lie one grid apart. -/
def rounds (count width start : Nat) : List Nat :=
  (List.range ((count + width - 1 - start) / width)).map fun round => start + round * width

variable {count width start : Nat}

/-- A block visits the numbers that leave its own remainder. -/
theorem mem_rounds {number : Nat} (inside : start < width) :
    number ∈ rounds count width start ↔ number < count ∧ number % width = start := by
  have positive : 0 < width := by omega
  simp only [rounds, List.mem_map, List.mem_range]
  constructor
  · rintro ⟨round, below, rfl⟩
    have bound := (Nat.le_div_iff_mul_le positive).mp (Nat.succ_le_of_lt below)
    rw [Nat.succ_mul] at bound
    refine ⟨by omega, ?_⟩
    rw [Nat.add_mul_mod_self_right, Nat.mod_eq_of_lt inside]
  · rintro ⟨below, rest⟩
    have whole := Nat.div_add_mod' number width
    refine ⟨number / width, ?_, by omega⟩
    refine Nat.lt_of_succ_le ((Nat.le_div_iff_mul_le positive).mpr ?_)
    rw [Nat.succ_mul]
    omega

theorem rounds_nodup (positive : 0 < width) : (rounds count width start).Nodup := by
  refine PartialLists.nodup_map_of_key (fun number => (number - start) / width)
    List.nodup_range ?_
  intro round _
  rw [Nat.add_sub_cancel_left, Nat.mul_div_cancel _ positive]

end GridStride
