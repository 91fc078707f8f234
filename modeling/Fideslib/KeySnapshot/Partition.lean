/-
This file proves what a polynomial of a key holds after its limbs are allocated, loaded and freed.
-/

import Fideslib.KeySnapshot.Loading

namespace Fideslib.KeySnapshot

open Registry.Placement (LimbRecord wordBytes)

variable (context : Context)

/-- These are the words of new limbs for all records. -/
def blanks (digits : List (List LimbRecord)) : List (List LimbWords) :=
  digits.map fun records => records.map (blank context)

namespace LimbPartition

/-- No digit has a limb. -/
def Cleared (partition : LimbPartition) : Prop :=
  (∀ group ∈ partition.DECOMPlimb, group = []) ∧ ∀ group ∈ partition.DIGITlimb, group = []

/-- Each record has a limb of its shape. -/
def Full (partition : LimbPartition) : Prop :=
  shapes partition.DECOMPlimb =
      (blanks context context.DECOMPmeta).map (fun group => group.map LimbWords.shape) ∧
    shapes partition.DIGITlimb =
      (blanks context context.DIGITmeta).map fun group => group.map LimbWords.shape

/-- Each record has a limb without values. -/
def Blank (partition : LimbPartition) : Prop :=
  contents partition.DECOMPlimb = blanks context context.DECOMPmeta ∧
    contents partition.DIGITlimb = blanks context context.DIGITmeta

/-- The tables of the digits point to the limbs. -/
def Pointed (partition : LimbPartition) : Prop :=
  (∀ i j buffer, bufferAt partition.DECOMPlimb i j = some buffer →
      partition.DECOMPlimbptr i j = some buffer) ∧
    ∀ i j buffer, bufferAt partition.DIGITlimb i j = some buffer →
      partition.DIGITlimbptr i j = some buffer

/-- The table of the regular limbs points to the limbs of the decomposition. -/
def Regular (partition : LimbPartition) : Prop :=
  ∀ limb ∈ partition.DECOMPlimb.flatten, ∀ (k : Nat) own, context.meta_[k]? = some own →
    own.id = limb.words.primeid → partition.limbptr k = some limb.buffer

/-- The device memory that the limbs of the partition occupy. -/
def ownedBytes (partition : LimbPartition) : Nat :=
  ((partition.DECOMPlimb.flatten ++ partition.DIGITlimb.flatten).map Limb.ownedBytes).sum

variable {context} {partition other : LimbPartition}

theorem new_cleared : (new context).Cleared :=
  ⟨fun _ member => List.eq_of_mem_replicate member, fun _ member => List.eq_of_mem_replicate member⟩

theorem free_cleared (partition : LimbPartition) : partition.freeDecompDigitLimbs.Cleared := by
  constructor <;>
    · intro group member
      obtain ⟨_, _, rfl⟩ := List.mem_map.mp member
      rfl

theorem Blank.full (blank : partition.Blank context) : partition.Full context := by
  unfold Full shapes
  rw [blank.1, blank.2]
  exact ⟨rfl, rfl⟩

/-- A cleared partition gets blank limbs. -/
theorem Cleared.generate_blank (context : Context) (cleared : partition.Cleared) :
    (partition.generateAllDecompAndDigit context).Blank context := by
  have empty : (partition.DECOMPlimb.headD []).isEmpty = true := by
    cases limbs : partition.DECOMPlimb with
    | nil => rfl
    | cons group groups =>
        have none := cleared.1 group (limbs ▸ List.mem_cons_self)
        rw [none]
        rfl
  unfold generateAllDecompAndDigit
  rw [if_pos empty]
  constructor
  · exact generateGroups_cleared (fun records member allocated =>
      generateDecompGroup_words (context.held records member) allocated) cleared.1 _
  · exact generateGroups_cleared (fun records _ allocated =>
      generateDigitGroup_words records allocated) cleared.2 _

theorem lengths_of_shapes {groups : List (List Limb)} {digits : List (List LimbRecord)}
    (same : shapes groups =
      (blanks context digits).map fun group => group.map LimbWords.shape) :
    groups.map List.length = digits.map List.length := by
  have lengths := congrArg (fun shape => shape.map List.length) same
  simpa [shapes, contents, blanks, Function.comp_def] using lengths

/-- A full partition keeps its limbs. -/
theorem Full.generate_kept (full : partition.Full context) :
    (partition.generateAllDecompAndDigit context).DECOMPlimb = partition.DECOMPlimb ∧
      (partition.generateAllDecompAndDigit context).DIGITlimb = partition.DIGITlimb := by
  have enough {groups : List (List Limb)} {digits : List (List LimbRecord)}
      (same : groups.map List.length = digits.map List.length) :
      List.Forall₂ (fun records group => records.length ≤ group.length) digits groups := by
    have equal : List.Forall₂ (fun a b => a = b) (digits.map List.length)
        (groups.map List.length) := by
      rw [same]
      exact List.forall₂_same.mpr fun _ _ => rfl
    rw [List.forall₂_map_left_iff, List.forall₂_map_right_iff] at equal
    exact equal.imp fun _ _ same => same.le
  have decomp : generateGroups (generateDecompGroup context) context.DECOMPmeta
      partition.DECOMPlimb partition.allocated = (partition.DECOMPlimb, partition.allocated) :=
    generateGroups_full (fun _ _ => generateDecompGroup_full) (enough (lengths_of_shapes full.1)) _
  have digit : generateGroups (generateDigitGroup context) context.DIGITmeta
      partition.DIGITlimb partition.allocated = (partition.DIGITlimb, partition.allocated) :=
    generateGroups_full (fun _ _ => KeySnapshot.generate_full)
      (enough (lengths_of_shapes full.2)) _
  unfold generateAllDecompAndDigit
  split
  · simp only [decomp, digit]
    exact ⟨trivial, trivial⟩
  · exact ⟨rfl, rfl⟩

theorem Full.generate_full (full : partition.Full context) :
    (partition.generateAllDecompAndDigit context).Full context := by
  obtain ⟨decomp, digit⟩ := full.generate_kept
  unfold Full
  rw [decomp, digit]
  exact full

theorem bufferAt_length {groups : List (List Limb)} {i j buffer : Nat}
    (found : bufferAt groups i j = some buffer) : j < (groups.getD i []).length := by
  obtain ⟨limb, there, -⟩ := Option.map_eq_some_iff.mp found
  exact (List.getElem?_eq_some_iff.mp there).1

theorem length_getD {groups : List (List Limb)} {digits : List (List LimbRecord)}
    (same : groups.map List.length = digits.map List.length) (i : Nat) :
    (groups.getD i []).length = (digits.getD i []).length := by
  have entry {Item : Type} (lists : List (List Item)) :
      (lists.map List.length).getD i 0 = (lists.getD i []).length := by
    simp only [List.getD_eq_getElem?_getD, List.getElem?_map]
    cases lists[i]? <;> rfl
  rw [← entry, ← entry, same]

/-- The tables point to the limbs that a cleared partition gets. -/
theorem Cleared.generate_pointed (context : Context) (cleared : partition.Cleared) :
    (partition.generateAllDecompAndDigit context).Pointed := by
  have full := (cleared.generate_blank context).full
  have lengths := length_getD (lengths_of_shapes full.1)
  have none (i : Nat) : partition.DIGITlimb.getD i [] = [] := by
    by_cases inside : i < partition.DIGITlimb.length
    · rw [List.getD_eq_getElem _ _ inside]
      exact cleared.2 _ (List.getElem_mem inside)
    · exact List.getD_eq_default _ _ (by omega)
  unfold generateAllDecompAndDigit at lengths ⊢
  split at lengths
  · rename_i empty
    rw [if_pos empty]
    constructor
    · intro i j buffer found
      have inside := bufferAt_length found
      simp only at found inside lengths ⊢
      rw [lengths] at inside
      rw [if_pos inside]
      exact found
    · intro i j buffer found
      have inside := bufferAt_length found
      simp only at found inside ⊢
      rw [if_pos ⟨by rw [none]; exact Nat.zero_le j, inside⟩]
      exact found
  · rename_i filled
    rw [if_neg filled]
    have blank : partition.DECOMPlimb.headD [] = [] := by
      cases limbs : partition.DECOMPlimb with
      | nil => rfl
      | cons group groups => exact cleared.1 group (limbs ▸ List.mem_cons_self)
    rw [blank] at filled
    exact absurd rfl filled

section Load

variable (context) (data : List (List (List Nat))) (n : Nat) (moduli : List (List Nat))

/-- A load keeps the shapes of the limbs, their buffers and the tables of the digits. -/
theorem loadRows_kept (partition : LimbPartition) :
    let loaded := (partition.loadRows context data n moduli).1
    shapes loaded.DECOMPlimb = shapes partition.DECOMPlimb ∧
      shapes loaded.DIGITlimb = shapes partition.DIGITlimb ∧
      buffers loaded.DECOMPlimb = buffers partition.DECOMPlimb ∧
      buffers loaded.DIGITlimb = buffers partition.DIGITlimb ∧
      loaded.DECOMPlimbptr = partition.DECOMPlimbptr ∧
      loaded.DIGITlimbptr = partition.DIGITlimbptr := by
  have shape (groups : List (List Limb)) :=
    loadGroups_shapes (load_uniform context data n moduli) 0 groups
  have buffer (groups : List (List Limb)) :=
    loadGroups_buffers (LimbWords.load context data n moduli) 0 groups
  unfold loadRows
  simp only
  split
  · exact ⟨shape _, rfl, buffer _, rfl, rfl, rfl⟩
  · exact ⟨shape _, shape _, buffer _, buffer _, rfl, rfl⟩

theorem Full.load_full (full : partition.Full context) :
    (partition.loadRows context data n moduli).1.Full context := by
  obtain ⟨decomp, digit, -⟩ := loadRows_kept context data n moduli partition
  exact ⟨decomp.trans full.1, digit.trans full.2⟩

theorem Pointed.load_pointed (pointed : partition.Pointed) :
    (partition.loadRows context data n moduli).1.Pointed := by
  obtain ⟨-, -, decomp, digit, decompTable, digitTable⟩ :=
    loadRows_kept context data n moduli partition
  have entry {groups others : List (List Limb)} (same : buffers groups = buffers others)
      (i j : Nat) : bufferAt groups i j = bufferAt others i j := by
    have place (groups : List (List Limb)) :
        bufferAt groups i j = ((buffers groups).getD i [])[j]? := by
      simp only [bufferAt, buffers, List.getD_eq_getElem?_getD, List.getElem?_map]
      cases groups[i]? with
      | none => rfl
      | some group => simp
    rw [place, place, same]
  unfold Pointed
  rw [decompTable, digitTable]
  exact ⟨fun i j buffer found => pointed.1 i j buffer (by rwa [← entry decomp]),
    fun i j buffer found => pointed.2 i j buffer (by rwa [← entry digit])⟩

/-- Whether a load fails depends on the shapes only. -/
theorem loadRows_failure (decomp : shapes partition.DECOMPlimb = shapes other.DECOMPlimb)
    (digit : shapes partition.DIGITlimb = shapes other.DIGITlimb) :
    (partition.loadRows context data n moduli).2 = (other.loadRows context data n moduli).2 := by
  have first := loadGroups_failure (load_uniform context data n moduli) decomp 0
  have second := loadGroups_failure (load_uniform context data n moduli) digit 0
  unfold loadRows
  simp only [first]
  split
  · rfl
  · exact second

/-- What a load leaves depends on the words before. -/
theorem loadRows_congr (decomp : contents partition.DECOMPlimb = contents other.DECOMPlimb)
    (digit : contents partition.DIGITlimb = contents other.DIGITlimb) :
    contents (partition.loadRows context data n moduli).1.DECOMPlimb =
        contents (other.loadRows context data n moduli).1.DECOMPlimb ∧
      contents (partition.loadRows context data n moduli).1.DIGITlimb =
        contents (other.loadRows context data n moduli).1.DIGITlimb := by
  obtain ⟨failed, first⟩ := loadGroups_congr (LimbWords.load context data n moduli) decomp 0
  obtain ⟨-, second⟩ := loadGroups_congr (LimbWords.load context data n moduli) digit 0
  unfold loadRows
  simp only [failed]
  split
  · exact ⟨first, digit⟩
  · exact ⟨first, second⟩

end Load

/-- What depends on the shapes of the limbs is read from the records. -/
theorem map_flatten_of_shapes {Value : Type} {groups : List (List Limb)}
    {digits : List (List LimbRecord)}
    (same : shapes groups = (blanks context digits).map fun group => group.map LimbWords.shape)
    (read : Nat × Registry.LimbType × Nat → Value) :
    groups.flatten.map (fun limb => read limb.words.shape) =
      digits.flatten.map fun record => read (blank context record).shape := by
  have flat := congrArg (fun shape => (shape.map fun group => group.map read).flatten) same
  simpa only [shapes, contents, blanks, List.map_map, List.map_flatten, Function.comp_def] using flat

theorem Full.primes (full : partition.Full context) :
    partition.DECOMPlimb.flatten.map (fun limb => limb.words.primeid) =
      context.DECOMPmeta.flatten.map LimbRecord.id :=
  map_flatten_of_shapes full.1 Prod.fst

/-- A full partition occupies the bytes of its records. -/
theorem Full.bytes (full : partition.Full context) :
    partition.ownedBytes = ((context.DECOMPmeta.flatten ++ context.DIGITmeta.flatten).map
      fun record => context.N * wordBytes record.type).sum := by
  have decomp := map_flatten_of_shapes full.1 fun shape => shape.2.2 * wordBytes shape.2.1
  have digit := map_flatten_of_shapes full.2 fun shape => shape.2.2 * wordBytes shape.2.1
  simp only [LimbWords.shape, blank, List.length_replicate] at decomp digit
  rw [ownedBytes, List.map_append, List.map_append, ← decomp, ← digit]
  rfl

/-- Limbs of different primes have their own entries in the table of the regular limbs. -/
theorem limbTable_entry {limbs : List Limb}
    (distinct : (limbs.map fun limb => limb.words.primeid).Nodup) {limb : Limb}
    (member : limb ∈ limbs) {k : Nat} {own : LimbRecord} (there : context.meta_[k]? = some own)
    (same : own.id = limb.words.primeid) : limbTable context limbs k = some limb.buffer := by
  induction limbs using List.reverseRecOn with
  | nil => cases member
  | append_singleton limbs last inductionHypothesis =>
      rw [List.map_append, List.nodup_append] at distinct
      obtain ⟨rest, -, apart⟩ := distinct
      rw [limbTable, List.foldl_append, ← limbTable]
      simp only [List.foldl_cons, List.foldl_nil, there, Option.map_some, Option.some.injEq, same]
      rcases List.mem_append.mp member with before | here
      · have other := apart _ (List.mem_map_of_mem before) last.words.primeid (by simp)
        rw [if_neg other]
        exact inductionHypothesis rest before
      · rw [List.mem_singleton] at here
        rw [here, if_pos rfl]

section Loaded

variable {data : List (List (List Nat))} {n : Nat} {moduli : List (List Nat)}

/-- A load without a failure has loaded each limb of both kinds. -/
theorem loadRows_loaded (succeeds : (partition.loadRows context data n moduli).2 = none) {i : Nat}
    {group : List Limb}
    (found : (partition.loadRows context data n moduli).1.DECOMPlimb[i]? = some group ∨
      (partition.loadRows context data n moduli).1.DIGITlimb[i]? = some group) :
    ∃ before, (partition.DECOMPlimb[i]? = some before ∨ partition.DIGITlimb[i]? = some before) ∧
      List.Forall₂ (fun before after =>
        LimbWords.load context data n moduli i before.words = .ok after.words) before group := by
  unfold loadRows at succeeds found
  simp only at succeeds found
  split at succeeds
  · cases succeeds
  · rename_i passed
    simp only [passed] at found
    rcases found with decomp | digit
    · obtain ⟨before, there, loaded⟩ := loadGroups_loaded passed decomp
      rw [Nat.zero_add] at loaded
      exact ⟨before, Or.inl there, loaded⟩
    · obtain ⟨before, there, loaded⟩ := loadGroups_loaded succeeds digit
      rw [Nat.zero_add] at loaded
      exact ⟨before, Or.inr there, loaded⟩

/-- After a load without a failure the table of the regular limbs is right. -/
theorem Full.load_regular (full : partition.Full context)
    (succeeds : (partition.loadRows context data n moduli).2 = none) :
    (partition.loadRows context data n moduli).1.Regular context := by
  have distinct : ((partition.loadRows context data n moduli).1.DECOMPlimb.flatten.map
      fun limb => limb.words.primeid).Nodup := by
    rw [(full.load_full context data n moduli).primes]
    exact context.distinct
  have table : (partition.loadRows context data n moduli).1.limbptr =
      limbTable context (partition.loadRows context data n moduli).1.DECOMPlimb.flatten := by
    unfold loadRows at succeeds ⊢
    simp only at succeeds ⊢
    split at succeeds
    · cases succeeds
    · simp only
  intro limb member k own there same
  rw [table]
  exact limbTable_entry distinct member there same

end Loaded

end LimbPartition

end Fideslib.KeySnapshot
