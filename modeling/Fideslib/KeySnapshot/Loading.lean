/-
This file proves what generating and loading do to the limbs of a polynomial of a key.
-/

import Fideslib.KeySnapshot.Key

namespace Fideslib.KeySnapshot

open Registry.Placement (LimbRecord)

variable {context : Context}

/-- The prime, the type and the size of a limb decide whether it can be loaded. -/
def LimbWords.shape (words : LimbWords) : Nat × Registry.LimbType × Nat :=
  (words.primeid, words.type, words.v.length)

/-- The words of the limbs without their buffers. -/
def contents (groups : List (List Limb)) : List (List LimbWords) :=
  groups.map fun group => group.map Limb.words

def shapes (groups : List (List Limb)) : List (List (Nat × Registry.LimbType × Nat)) :=
  (contents groups).map fun group => group.map LimbWords.shape

def buffers (groups : List (List Limb)) : List (List Nat) :=
  groups.map fun group => group.map Limb.buffer

section Generate

variable {records : List LimbRecord} {count : Nat} {state : List Limb × Nat}

theorem generate_words (context : Context) (records : List LimbRecord) (count : Nat)
    (state : List Limb × Nat) :
    (generate context records count state).1.map Limb.words =
      state.1.map Limb.words ++ ((records.take count).drop state.1.length).map (blank context) := by
  simp only [generate, List.map_append]
  congr 1
  apply List.ext_getElem (by simp)
  intro i left right
  simp

/-- A digit with all its limbs gets no others. -/
theorem generate_full (full : records.length ≤ state.1.length) :
    generate context records count state = state := by
  have none : (records.take count).drop state.1.length = [] := by
    rw [List.drop_eq_nil_iff, List.length_take]
    omega
  simp [generate, none]

/-- The limbs of a digit are blank limbs of its first records. -/
def Started (context : Context) (records : List LimbRecord) (group : List Limb) : Prop :=
  group.map Limb.words = (records.take group.length).map (blank context) ∧
    group.length ≤ records.length

theorem generate_started (started : Started context records state.1) {count : Nat}
    (inside : count ≤ records.length) :
    Started context records (generate context records count state).1 ∧
      (generate context records count state).1.length = max state.1.length count := by
  obtain ⟨words, short⟩ := started
  have length : (generate context records count state).1.length = max state.1.length count := by
    have lengths := congrArg List.length (generate_words context records count state)
    simp only [List.length_map, List.length_append, List.length_drop, List.length_take] at lengths
    omega
  refine ⟨⟨?_, by omega⟩, length⟩
  rw [length, generate_words, words, ← List.map_append]
  rcases Nat.le_total state.1.length count with more | enough
  · rw [Nat.max_eq_right more]
    congr 1
    have split := List.take_append_drop state.1.length (records.take count)
    rw [List.take_take, Nat.min_eq_left more] at split
    exact split
  · rw [Nat.max_eq_left enough, List.drop_eq_nil_of_le (by rw [List.length_take]; omega),
      List.append_nil]

/-- After the search for its prime a digit has the limbs up to it. -/
theorem search_started (own : List LimbRecord) {j : Nat} (inside : j < records.length)
    (started : Started context records state.1) (before : j ≤ state.1.length) :
    let after := own.foldl (fun state own =>
      if records[j]?.map LimbRecord.id = some own.id then generate context records (j + 1) state
      else state) state
    Started context records after.1 ∧ state.1.length ≤ after.1.length ∧
      ((∃ l ∈ own, l.id = records[j].id) → j + 1 ≤ after.1.length) := by
  induction own generalizing state with
  | nil => exact ⟨started, le_rfl, by simp⟩
  | cons first own inductionHypothesis =>
      simp only [List.foldl_cons]
      split
      · rename_i found
        obtain ⟨next, length⟩ := generate_started started (show j + 1 ≤ records.length by omega)
        obtain ⟨last, more, -⟩ := inductionHypothesis next (by omega)
        exact ⟨last, by omega, fun _ => by omega⟩
      · rename_i other
        obtain ⟨last, more, later⟩ := inductionHypothesis started before
        refine ⟨last, more, ?_⟩
        rintro ⟨l, member, same⟩
        rcases List.mem_cons.mp member with rfl | rest
        · rw [List.getElem?_eq_getElem inside, same] at other
          exact absurd rfl other
        · exact later ⟨l, rest, same⟩

/-- A digit whose primes are on the device gets a blank limb for each of them. -/
theorem generateDecompGroup_words
    (held : ∀ record ∈ records, ∃ own ∈ context.meta_, own.id = record.id) (allocated : Nat) :
    (generateDecompGroup context records ([], allocated)).1.map Limb.words =
      records.map (blank context) := by
  have steps : ∀ count ≤ records.length,
      let after := (List.range count).foldl (fun state j =>
        context.meta_.foldl (fun state own =>
          if records[j]?.map LimbRecord.id = some own.id then
            generate context records (j + 1) state
          else state) state) (([], allocated) : List Limb × Nat)
      Started context records after.1 ∧ count ≤ after.1.length := by
    intro count
    induction count with
    | zero => exact fun _ => ⟨⟨by simp, Nat.zero_le _⟩, Nat.zero_le _⟩
    | succ count inductionHypothesis =>
        intro inside
        obtain ⟨started, before⟩ := inductionHypothesis (by omega)
        rw [List.range_succ, List.foldl_append]
        obtain ⟨last, -, later⟩ := search_started context.meta_ inside started before
        exact ⟨last, later (held _ (List.getElem_mem inside))⟩
  obtain ⟨⟨words, short⟩, all⟩ := steps records.length le_rfl
  rw [generateDecompGroup, words, List.take_of_length_le all]

theorem generateDigitGroup_words (records : List LimbRecord) (allocated : Nat) :
    (generateDigitGroup context records ([], allocated)).1.map Limb.words =
      records.map (blank context) := by
  rw [generateDigitGroup, generate_words]
  simp

theorem generateDecompGroup_full (full : records.length ≤ state.1.length) :
    generateDecompGroup context records state = state := by
  have kept (j : Nat) (own : List LimbRecord) : own.foldl (fun state own =>
      if records[j]?.map LimbRecord.id = some own.id then generate context records (j + 1) state
      else state) state = state := by
    induction own with
    | nil => rfl
    | cons first own inductionHypothesis =>
        rw [List.foldl_cons, generate_full full, ite_self, inductionHypothesis]
  rw [generateDecompGroup]
  generalize List.range records.length = places
  induction places with
  | nil => rfl
  | cons j places inductionHypothesis => rw [List.foldl_cons, kept, inductionHypothesis]

variable {step : List LimbRecord → List Limb × Nat → List Limb × Nat}

/-- Cleared digits get the blank limbs of their records. -/
theorem generateGroups_cleared {digits : List (List LimbRecord)} {groups : List (List Limb)}
    (blanks : ∀ records ∈ digits, ∀ allocated,
      (step records ([], allocated)).1.map Limb.words = records.map (blank context))
    (cleared : ∀ group ∈ groups, group = []) (allocated : Nat) :
    contents (generateGroups step digits groups allocated).1 =
      digits.map fun records => records.map (blank context) := by
  induction digits generalizing groups allocated with
  | nil => rfl
  | cons records digits inductionHypothesis =>
      have first : groups.headD [] = [] := by
        cases groups with
        | nil => rfl
        | cons group groups => exact cleared group List.mem_cons_self
      have rest : ∀ group ∈ groups.tail, group = [] := fun group member =>
        cleared group (List.mem_of_mem_tail member)
      simp only [generateGroups, first]
      rw [contents, List.map_cons, blanks records List.mem_cons_self, ← contents,
        inductionHypothesis (fun other member => blanks other (List.mem_cons_of_mem _ member)) rest,
        List.map_cons]

/-- Full digits stay as they are. -/
theorem generateGroups_full {digits : List (List LimbRecord)} {groups : List (List Limb)}
    (kept : ∀ records state, records.length ≤ state.1.length → step records state = state)
    (full : List.Forall₂ (fun records group => records.length ≤ group.length) digits groups)
    (allocated : Nat) : generateGroups step digits groups allocated = (groups, allocated) := by
  induction full with
  | nil => rfl
  | @cons records group digits groups enough _ inductionHypothesis =>
      simp only [generateGroups, List.headD_cons, List.tail_cons]
      rw [kept records (group, allocated) enough]
      simp only [inductionHypothesis]

end Generate

section Load

def failureOf {Result : Type} : Except Failure Result → Option Failure
  | .ok _ => none
  | .error failure => some failure

/-- A loader decides by the shape of a limb whether it fails, and keeps the shape. -/
structure Uniform (load : LimbWords → Except Failure LimbWords) : Prop where
  keeps : ∀ words after, load words = .ok after → after.shape = words.shape
  decides : ∀ words other, words.shape = other.shape →
    failureOf (load words) = failureOf (load other)

theorem load_uniform (context : Context) (data : List (List (List Nat))) (n : Nat)
    (moduli : List (List Nat)) (i : Nat) : Uniform (LimbWords.load context data n moduli i) where
  keeps := by
    intro words after loaded
    unfold LimbWords.load at loaded
    split at loaded
    · cases loaded
    · split at loaded
      · cases loaded
      · cases loaded
        rfl
      · unfold LimbWords.load_convert at loaded
        split at loaded
        · cases loaded
          simp only [LimbWords.shape, List.length_append, List.length_map, List.length_range,
            List.length_drop, Prod.mk.injEq, true_and]
          omega
        · cases loaded
  decides := by
    intro words other same
    simp only [LimbWords.shape, Prod.mk.injEq] at same
    obtain ⟨prime, -, length⟩ := same
    unfold LimbWords.load
    split
    · rfl
    · rw [prime]
      split
      · rfl
      · rfl
      · unfold LimbWords.load_convert
        rw [length]
        split <;> rfl

section Group

variable (load : LimbWords → Except Failure LimbWords) {limbs others : List Limb}

/-- Loading does not move a limb. -/
theorem loadGroup_buffers (limbs : List Limb) :
    (loadGroup load limbs).1.map Limb.buffer = limbs.map Limb.buffer := by
  induction limbs with
  | nil => rfl
  | cons limb limbs inductionHypothesis =>
      unfold loadGroup
      split
      · rfl
      · rw [List.map_cons, inductionHypothesis, List.map_cons]

/-- The words that loading leaves depend on the words before. -/
theorem loadGroup_congr (same : limbs.map Limb.words = others.map Limb.words) :
    (loadGroup load limbs).2 = (loadGroup load others).2 ∧
      (loadGroup load limbs).1.map Limb.words = (loadGroup load others).1.map Limb.words := by
  induction limbs generalizing others with
  | nil =>
      rw [List.map_nil, eq_comm, List.map_eq_nil_iff] at same
      rw [same]
      exact ⟨rfl, rfl⟩
  | cons limb limbs inductionHypothesis =>
      cases others with
      | nil => cases same
      | cons other others =>
          rw [List.map_cons, List.map_cons, List.cons.injEq] at same
          obtain ⟨here, rest⟩ := same
          unfold loadGroup
          rw [← here]
          split
          · exact ⟨rfl, by rw [List.map_cons, List.map_cons, here, rest]⟩
          · obtain ⟨failed, words⟩ := inductionHypothesis rest
            exact ⟨failed, by rw [List.map_cons, List.map_cons, words]⟩

variable {load}

theorem loadGroup_shape (uniform : Uniform load) (limbs : List Limb) :
    ((loadGroup load limbs).1.map Limb.words).map LimbWords.shape =
      (limbs.map Limb.words).map LimbWords.shape := by
  induction limbs with
  | nil => rfl
  | cons limb limbs inductionHypothesis =>
      unfold loadGroup
      split
      · rfl
      · rename_i words loaded
        rw [List.map_cons, List.map_cons, inductionHypothesis, uniform.keeps _ _ loaded]
        rfl

/-- The failure depends on the shapes only. -/
theorem loadGroup_failure (uniform : Uniform load)
    (same : (limbs.map Limb.words).map LimbWords.shape =
      (others.map Limb.words).map LimbWords.shape) :
    (loadGroup load limbs).2 = (loadGroup load others).2 := by
  induction limbs generalizing others with
  | nil =>
      rw [List.map_nil, List.map_nil, eq_comm, List.map_eq_nil_iff, List.map_eq_nil_iff] at same
      rw [same]
  | cons limb limbs inductionHypothesis =>
      cases others with
      | nil => cases same
      | cons other others =>
          simp only [List.map_cons, List.cons.injEq] at same
          obtain ⟨here, rest⟩ := same
          have decided := uniform.decides _ _ here
          unfold loadGroup
          cases first : load limb.words with
          | error failure =>
              rw [first] at decided
              cases second : load other.words with
              | error failure =>
                  rw [second] at decided
                  exact decided
              | ok words =>
                  rw [second] at decided
                  cases decided
          | ok words =>
              rw [first] at decided
              cases second : load other.words with
              | error failure =>
                  rw [second] at decided
                  cases decided
              | ok words => exact inductionHypothesis rest

/-- Without a failure each limb has been loaded. -/
theorem loadGroup_loaded (succeeds : (loadGroup load limbs).2 = none) :
    List.Forall₂ (fun before after => load before.words = .ok after.words) limbs
      (loadGroup load limbs).1 := by
  induction limbs with
  | nil => exact .nil
  | cons limb limbs inductionHypothesis =>
      unfold loadGroup at succeeds ⊢
      split at succeeds
      · cases succeeds
      · rename_i words loaded
        exact .cons loaded (inductionHypothesis succeeds)

end Group

section Groups

variable (load : Nat → LimbWords → Except Failure LimbWords) {groups others : List (List Limb)}

theorem loadGroups_buffers (i : Nat) (groups : List (List Limb)) :
    buffers (loadGroups load i groups).1 = buffers groups := by
  induction groups generalizing i with
  | nil => rfl
  | cons group groups inductionHypothesis =>
      unfold loadGroups
      simp only
      split
      · rw [buffers, List.map_cons, loadGroup_buffers]
        rfl
      · rw [buffers, List.map_cons, loadGroup_buffers, ← buffers, inductionHypothesis]
        rfl

theorem loadGroups_congr (same : contents groups = contents others) (i : Nat) :
    (loadGroups load i groups).2 = (loadGroups load i others).2 ∧
      contents (loadGroups load i groups).1 = contents (loadGroups load i others).1 := by
  induction groups generalizing i others with
  | nil =>
      rw [contents, contents, List.map_nil, eq_comm, List.map_eq_nil_iff] at same
      rw [same]
      exact ⟨rfl, rfl⟩
  | cons group groups inductionHypothesis =>
      cases others with
      | nil => cases same
      | cons other others =>
          rw [contents, contents, List.map_cons, List.map_cons, List.cons.injEq] at same
          obtain ⟨here, rest⟩ := same
          obtain ⟨failed, words⟩ := loadGroup_congr (load i) here
          unfold loadGroups
          simp only [← failed]
          split
          · refine ⟨rfl, ?_⟩
            rw [contents, contents, List.map_cons, List.map_cons, words, rest]
          · obtain ⟨later, after⟩ := inductionHypothesis rest (i + 1)
            refine ⟨later, ?_⟩
            rw [contents, contents, List.map_cons, List.map_cons, words, ← contents, ← contents,
              after]

variable {load}

theorem loadGroups_shapes (uniform : ∀ i, Uniform (load i)) (i : Nat)
    (groups : List (List Limb)) : shapes (loadGroups load i groups).1 = shapes groups := by
  induction groups generalizing i with
  | nil => rfl
  | cons group groups inductionHypothesis =>
      have first := loadGroup_shape (uniform i) group
      unfold loadGroups
      simp only
      split
      · simp only [shapes, contents, List.map_cons, first]
      · have rest := inductionHypothesis (i + 1)
        simp only [shapes, contents] at rest
        simp only [shapes, contents, List.map_cons, first, rest]

/-- The failure of a load depends on the shapes only. -/
theorem loadGroups_failure (uniform : ∀ i, Uniform (load i)) (same : shapes groups = shapes others)
    (i : Nat) : (loadGroups load i groups).2 = (loadGroups load i others).2 := by
  induction groups generalizing i others with
  | nil =>
      simp only [shapes, contents, List.map_nil] at same
      rw [eq_comm, List.map_eq_nil_iff, List.map_eq_nil_iff] at same
      rw [same]
  | cons group groups inductionHypothesis =>
      cases others with
      | nil => cases same
      | cons other others =>
          simp only [shapes, contents, List.map_cons, List.cons.injEq] at same
          obtain ⟨here, rest⟩ := same
          have failed := loadGroup_failure (uniform i) here
          unfold loadGroups
          simp only [failed]
          split
          · rfl
          · exact inductionHypothesis rest (i + 1)

/-- Without a failure each limb of each digit has been loaded. -/
theorem loadGroups_loaded {first : Nat} (succeeds : (loadGroups load first groups).2 = none)
    {i : Nat} {group : List Limb} (found : (loadGroups load first groups).1[i]? = some group) :
    ∃ before, groups[i]? = some before ∧
      List.Forall₂ (fun before after => load (first + i) before.words = .ok after.words)
        before group := by
  induction groups generalizing first i with
  | nil => cases found
  | cons head groups inductionHypothesis =>
      unfold loadGroups at succeeds found
      simp only at succeeds found
      split at succeeds
      · cases succeeds
      · rename_i passed
        rw [passed] at found
        cases i with
        | zero =>
            cases found
            exact ⟨head, rfl, loadGroup_loaded passed⟩
        | succ i =>
            obtain ⟨before, there, loaded⟩ := inductionHypothesis succeeds found
            rw [show first + 1 + i = first + (i + 1) by omega] at loaded
            exact ⟨before, there, loaded⟩

end Groups

end Load

end Fideslib.KeySnapshot
