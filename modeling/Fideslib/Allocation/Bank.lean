/-
This file translates the limbs of one device, their pointer table and the kernel that copies them.
-/

import Fideslib.Transfer.ExtendedRows

namespace Fideslib.Allocation

/-- A context has its primes, the ring degree, the rule for the level above the chain, and the words
that an allocation happens to hold. -/
structure Context (Word : Type) where
  scheme : Transfer.Scheme
  N : Nat
  flexibleAutoExt : Bool
  memory : Nat → Nat → Word

/-- A limb has its prime and one buffer of words. -/
structure Limb (Word : Type) where
  primeid : Nat
  buffer : Nat
  v : List Word
deriving DecidableEq

/-- A bank is a list of limbs with the device table of their buffers. The table keeps the entries of
limbs that are gone. -/
structure Bank (Word : Type) where
  limb : List (Limb Word)
  ptr : Nat → Option Nat
  allocated : Nat

variable {Word : Type}

namespace Bank

/-- A new bank has no limbs. -/
def empty : Bank Word := ⟨[], fun _ => none, 0⟩

/-- The limbs up to the count are allocated, and only the new ones enter the table. -/
def generate (context : Context Word) (first count words : Nat) (bank : Bank Word) : Bank Word where
  limb := bank.limb ++ (List.range (count - bank.limb.length)).map fun place =>
    { primeid := first + (bank.limb.length + place)
      buffer := bank.allocated + place
      v := (List.range words).map (context.memory (bank.allocated + place)) }
  ptr := fun place => if bank.limb.length ≤ place ∧ place < count then
    some (bank.allocated + (place - bank.limb.length)) else bank.ptr place
  allocated := bank.allocated + (count - bank.limb.length)

def clear (bank : Bank Word) : Bank Word := { bank with limb := [] }

/-- The words of one limb are replaced. -/
def setWords (place : Nat) (words : List Word) (bank : Bank Word) : Bank Word :=
  { bank with limb := bank.limb.modify place fun limb => { limb with v := words } }

/-- The words of every limb are replaced. -/
def mapWords (change : List Word → List Word) (bank : Bank Word) : Bank Word :=
  { bank with limb := bank.limb.map fun limb => { limb with v := change limb.v } }

/-- A row replaces the first words of a limb. -/
def loadConvert (place : Nat) (row : List Word) (bank : Bank Word) : Option (Bank Word) := do
  let limb ← bank.limb[place]?
  let words ← Transfer.loadConvert row limb.v
  some (bank.setWords place words)

/-- A pointer finds the limb whose buffer it is. -/
def find (pointer : Nat) (bank : Bank Word) : Option Nat :=
  bank.limb.findIdx? fun limb => limb.buffer = pointer

/-- The threads of one row read and write through both tables, and must stay inside the buffers. -/
def copyRow (source : Bank Word) (launched row : Nat) (bank : Bank Word) : Option (Bank Word) := do
  let pointer ← source.ptr row
  let read ← source.find pointer
  let old ← source.limb[read]?
  let into ← bank.ptr row
  let place ← bank.find into
  let limb ← bank.limb[place]?
  if launched ≤ old.v.length ∧ launched ≤ limb.v.length then
    some (bank.setWords place (old.v.take launched ++ limb.v.drop launched))
  else none

/-- A launch without threads copies nothing. -/
def copy (source : Bank Word) (launched rows : Nat) (bank : Bank Word) : Option (Bank Word) :=
  if launched = 0 then some bank
  else (List.range rows).foldlM (fun bank row => copyRow source launched row bank) bank

/-- Every limb has the same number of words. -/
def Words (words : Nat) (bank : Bank Word) : Prop := ∀ limb ∈ bank.limb, limb.v.length = words

instance (words : Nat) (bank : Bank Word) : Decidable (bank.Words words) :=
  inferInstanceAs (Decidable (∀ limb ∈ bank.limb, limb.v.length = words))

/-- The limbs belong to consecutive primes and the table holds their buffers, which differ. -/
structure Sound (first : Nat) (bank : Bank Word) : Prop where
  primes : ∀ (place : Nat) limb, bank.limb[place]? = some limb → limb.primeid = first + place
  table : ∀ (place : Nat) limb, bank.limb[place]? = some limb → bank.ptr place = some limb.buffer
  older : ∀ limb ∈ bank.limb, limb.buffer < bank.allocated
  distinct : (bank.limb.map Limb.buffer).Nodup

variable {context : Context Word} {first count words : Nat} {bank : Bank Word}

theorem empty_sound : (empty : Bank Word).Sound first :=
  ⟨by simp [empty], by simp [empty], by simp [empty], by simp [empty]⟩

theorem clear_sound : bank.clear.Sound first :=
  ⟨by simp [clear], by simp [clear], by simp [clear], by simp [clear]⟩

@[simp]
theorem clear_limb : bank.clear.limb = [] := rfl

@[simp]
theorem setWords_length (place : Nat) (row : List Word) :
    (bank.setWords place row).limb.length = bank.limb.length := by
  simp [setWords]

theorem setWords_getElem? (place other : Nat) (row : List Word) :
    (bank.setWords place row).limb[other]? =
      bank.limb[other]?.map fun limb => if place = other then { limb with v := row } else limb := by
  unfold setWords
  rw [List.getElem?_modify]
  by_cases same : place = other
  · simp only [if_pos same]
    rfl
  · simp [same]

@[simp]
theorem generate_length : (bank.generate context first count words).limb.length =
    max count bank.limb.length := by
  simp only [generate, List.length_append, List.length_map, List.length_range]
  omega

theorem generate_words (same : bank.Words words) :
    (bank.generate context first count words).Words words := by
  intro limb member
  rcases List.mem_append.mp member with old | new
  · exact same limb old
  · obtain ⟨place, -, rfl⟩ := List.mem_map.mp new
    simp

/-- Without missing limbs nothing is allocated. -/
theorem generate_eq_self (enough : count ≤ bank.limb.length) :
    bank.generate context first count words = bank := by
  have none : count - bank.limb.length = 0 := Nat.sub_eq_zero_of_le enough
  have table : (fun place => if bank.limb.length ≤ place ∧ place < count then
      some (bank.allocated + (place - bank.limb.length)) else bank.ptr place) = bank.ptr := by
    funext place
    exact if_neg (by omega)
  unfold generate
  rw [none, table, List.range_zero, List.map_nil, List.append_nil, Nat.add_zero]

theorem generate_sound (sound : bank.Sound first) :
    (bank.generate context first count words).Sound first := by
  have places {place : Nat} {limb : Limb Word}
      (there : (bank.generate context first count words).limb[place]? = some limb) :
      bank.limb[place]? = some limb ∨ bank.limb.length ≤ place ∧ place < count ∧
        limb.primeid = first + place ∧
        limb.buffer = bank.allocated + (place - bank.limb.length) := by
    by_cases old : place < bank.limb.length
    · left
      rw [generate, List.getElem?_append_left old] at there
      exact there
    · right
      rw [generate, List.getElem?_append_right (by omega), List.getElem?_map,
        Option.map_eq_some_iff] at there
      obtain ⟨added, found, rfl⟩ := there
      obtain ⟨inside, rfl⟩ := List.getElem?_eq_some_iff.mp found
      rw [List.length_range] at inside
      rw [List.getElem_range]
      refine ⟨by omega, by omega, ?_, rfl⟩
      change first + (bank.limb.length + (place - bank.limb.length)) = first + place
      omega
  constructor
  case primes =>
    intro place limb there
    rcases places there with old | ⟨-, -, prime, -⟩
    · exact sound.primes place limb old
    · exact prime
  case table =>
    intro place limb there
    change (if bank.limb.length ≤ place ∧ place < count then _ else _) = _
    rcases places there with old | ⟨late, early, -, buffer⟩
    · have inside := (List.getElem?_eq_some_iff.mp old).1
      rw [if_neg (by omega)]
      exact sound.table place limb old
    · rw [if_pos ⟨late, early⟩, buffer]
  case older =>
    intro limb member
    change _ < bank.allocated + (count - bank.limb.length)
    obtain ⟨place, there⟩ := List.getElem?_of_mem member
    rcases places there with old | ⟨late, early, -, buffer⟩
    · have known := sound.older limb (List.mem_of_getElem? old)
      omega
    · omega
  case distinct =>
    change ((bank.limb ++ _).map Limb.buffer).Nodup
    rw [List.map_append, List.map_map]
    apply List.Nodup.append sound.distinct
    · apply List.Nodup.map_on _ List.nodup_range
      intro left _ right _ same
      change bank.allocated + left = bank.allocated + right at same
      omega
    · intro buffer old new
      obtain ⟨limb, member, rfl⟩ := List.mem_map.mp old
      obtain ⟨place, -, same⟩ := List.mem_map.mp new
      change bank.allocated + place = limb.buffer at same
      have known := sound.older limb member
      omega

/-- A bank whose limbs differ in their words only is sound as well. -/
theorem Sound.of_words {after : Bank Word} (sound : bank.Sound first) (ptr : after.ptr = bank.ptr)
    (allocated : after.allocated = bank.allocated)
    (same : after.limb.map (fun limb => (limb.primeid, limb.buffer)) =
      bank.limb.map fun limb => (limb.primeid, limb.buffer)) : after.Sound first := by
  have places {other : Nat} {limb : Limb Word} (there : after.limb[other]? = some limb) :
      ∃ before, bank.limb[other]? = some before ∧ limb.primeid = before.primeid ∧
        limb.buffer = before.buffer := by
    have here := congrArg (fun parts : List (Nat × Nat) => parts[other]?) same
    simp only [List.getElem?_map, there, Option.map_some] at here
    obtain ⟨before, found, parts⟩ := Option.map_eq_some_iff.mp here.symm
    exact ⟨before, found, (congrArg Prod.fst parts).symm, (congrArg Prod.snd parts).symm⟩
  constructor
  case primes =>
    intro other limb there
    obtain ⟨before, found, prime, -⟩ := places there
    rw [prime]
    exact sound.primes other before found
  case table =>
    intro other limb there
    obtain ⟨before, found, -, buffer⟩ := places there
    rw [ptr, buffer]
    exact sound.table other before found
  case older =>
    intro limb member
    obtain ⟨other, there⟩ := List.getElem?_of_mem member
    obtain ⟨before, found, -, buffer⟩ := places there
    rw [allocated, buffer]
    exact sound.older before (List.mem_of_getElem? found)
  case distinct =>
    have buffers := congrArg (List.map Prod.snd) same
    rw [List.map_map, List.map_map] at buffers
    change (after.limb.map Limb.buffer) = bank.limb.map Limb.buffer at buffers
    rw [buffers]
    exact sound.distinct

theorem setWords_sound (sound : bank.Sound first) (place : Nat) (row : List Word) :
    (bank.setWords place row).Sound first := by
  refine @Sound.of_words _ _ _ (bank.setWords place row) sound rfl rfl ?_
  apply List.ext_getElem?
  intro other
  rw [List.getElem?_map, List.getElem?_map, setWords_getElem?, Option.map_map]
  congr 1
  funext limb
  change (fun limb : Limb Word => (limb.primeid, limb.buffer)) (if _ then _ else _) = _
  split_ifs <;> rfl

theorem mapWords_sound (sound : bank.Sound first) (change : List Word → List Word) :
    (bank.mapWords change).Sound first := by
  refine @Sound.of_words _ _ _ (bank.mapWords change) sound rfl rfl ?_
  unfold mapWords
  rw [List.map_map]
  rfl

theorem setWords_words (same : bank.Words words) {place : Nat} {row : List Word}
    (size : row.length = words) : (bank.setWords place row).Words words := by
  intro limb member
  obtain ⟨other, there⟩ := List.getElem?_of_mem member
  rw [setWords_getElem?, Option.map_eq_some_iff] at there
  obtain ⟨before, found, rfl⟩ := there
  split_ifs
  · exact size
  · exact same before (List.mem_of_getElem? found)

/-- A bank is rewritten when its limbs keep their buffers and sizes. -/
structure Rewritten (first : Nat) (bank after : Bank Word) : Prop where
  sound : bank.Sound first → after.Sound first
  length : after.limb.length = bank.limb.length
  words : ∀ words, bank.Words words → after.Words words

theorem Rewritten.refl : Rewritten first bank bank := ⟨id, rfl, fun _ => id⟩

theorem Rewritten.trans {middle after : Bank Word} (left : Rewritten first bank middle)
    (right : Rewritten first middle after) : Rewritten first bank after :=
  ⟨right.sound ∘ left.sound, right.length.trans left.length,
    fun words same => right.words words (left.words words same)⟩

theorem mapWords_rewritten {change : List Word → List Word}
    (size : ∀ limb ∈ bank.limb, (change limb.v).length = limb.v.length) :
    Rewritten first bank (bank.mapWords change) := by
  refine ⟨fun sound => mapWords_sound sound change, List.length_map _, ?_⟩
  intro words same limb member
  obtain ⟨before, there, rfl⟩ := List.mem_map.mp member
  exact (size before there).trans (same before there)

theorem loadConvert_rewritten {place : Nat} {row : List Word} {after : Bank Word}
    (done : bank.loadConvert place row = some after) : Rewritten first bank after := by
  obtain ⟨limb, there, done⟩ := Option.bind_eq_some_iff.mp done
  obtain ⟨words, loaded, done⟩ := Option.bind_eq_some_iff.mp done
  cases done
  unfold Transfer.loadConvert at loaded
  split at loaded
  case isFalse => cases loaded
  case isTrue room =>
    cases loaded
    refine ⟨fun sound => setWords_sound sound place _, setWords_length place _, ?_⟩
    intro words same
    apply setWords_words same
    rw [List.length_append, List.length_drop, ← same limb (List.mem_of_getElem? there)]
    omega

theorem loadRows_rewritten {start : Nat} {rows : List (List Word)} {after : Bank Word}
    (done : PartialLists.visitInOrder loadConvert start rows bank = some after) :
    Rewritten first bank after :=
  PartialLists.visitInOrder_keeps (Rewritten first bank) .refl
    (fun _ _ _ _ loaded before => before.trans (loadConvert_rewritten loaded)) done

/-- A buffer of a sound bank belongs to one limb only. -/
theorem Sound.find (sound : bank.Sound first) {place : Nat} {limb : Limb Word}
    (there : bank.limb[place]? = some limb) : bank.find limb.buffer = some place := by
  obtain ⟨inside, here⟩ := List.getElem?_eq_some_iff.mp there
  unfold Bank.find
  rw [List.findIdx?_eq_some_iff_getElem]
  refine ⟨inside, by simp [here], ?_⟩
  intro earlier before
  have known : earlier < bank.limb.length := by omega
  have different := List.pairwise_iff_getElem.mp (List.pairwise_map.mp sound.distinct)
    earlier place known inside before
  simpa [here] using different

/-- A row that the launch covers exactly is copied into the limb of the same place. -/
theorem copyRow_eq {source : Bank Word} {other : Nat} (read : source.Sound other)
    (write : bank.Sound first) (readWords : source.Words words) (writeWords : bank.Words words)
    {row : Nat} {limb : Limb Word} (there : source.limb[row]? = some limb)
    (room : row < bank.limb.length) :
    copyRow source words row bank = some (bank.setWords row limb.v) := by
  have here := List.getElem?_eq_getElem room
  have readSize := readWords limb (List.mem_of_getElem? there)
  have writeSize := writeWords bank.limb[row] (List.getElem_mem room)
  unfold copyRow
  simp only [read.table row limb there, read.find there, there, write.table row _ here,
    write.find here, here, readSize, writeSize, le_refl, and_self, if_true, Option.bind_eq_bind,
    Option.bind_some]
  rw [List.take_of_length_le readSize.le, List.drop_of_length_le writeSize.le, List.append_nil]

/-- A launch that covers the limbs exactly makes the copied ones agree. -/
theorem copy_eq {source : Bank Word} {other rows : Nat} (read : source.Sound other)
    (write : bank.Sound first) (readWords : source.Words words) (writeWords : bank.Words words)
    (readRoom : rows ≤ source.limb.length) (writeRoom : rows ≤ bank.limb.length) :
    ∃ after, copy source words rows bank = some after ∧ Rewritten first bank after ∧
      ∀ place < rows, after.limb[place]?.map Limb.v = source.limb[place]?.map Limb.v := by
  have loop : ∃ after, (List.range rows).foldlM
        (fun bank row => copyRow source words row bank) bank = some after ∧
      after.Sound first ∧ after.Words words ∧ after.limb.length = bank.limb.length ∧
      ∀ place < rows, after.limb[place]?.map Limb.v = source.limb[place]?.map Limb.v := by
    induction rows with
    | zero => exact ⟨bank, rfl, write, writeWords, rfl, by simp⟩
    | succ rows ih =>
        obtain ⟨before, ran, sound, same, length, agree⟩ := ih (by omega) (by omega)
        have there := List.getElem?_eq_getElem (show rows < source.limb.length by omega)
        have size := readWords _ (List.mem_of_getElem? there)
        have step := copyRow_eq read sound readWords same there (show rows < _ by omega)
        refine ⟨_, ?_, setWords_sound sound rows _, setWords_words same size,
          (setWords_length rows _).trans length, ?_⟩
        · rw [List.range_succ, List.foldlM_append, ran]
          change (copyRow source words rows before >>= fun after => some after) = _
          rw [step]
          rfl
        · intro place below
          rw [setWords_getElem?, Option.map_map]
          by_cases last : rows = place
          · subst last
            have inside := List.getElem?_eq_getElem (show rows < before.limb.length by omega)
            rw [inside, there]
            simp
          · rw [← agree place (by omega)]
            congr 1
            funext limb
            simp [last]
  unfold Bank.copy
  by_cases none : words = 0
  · rw [if_pos none]
    subst none
    refine ⟨bank, rfl, .refl, ?_⟩
    intro place below
    have left := List.getElem?_eq_getElem (show place < bank.limb.length by omega)
    have right := List.getElem?_eq_getElem (show place < source.limb.length by omega)
    have leftEmpty := writeWords _ (List.mem_of_getElem? left)
    have rightEmpty := readWords _ (List.mem_of_getElem? right)
    rw [left, right, Option.map_some, Option.map_some, List.eq_nil_of_length_eq_zero leftEmpty,
      List.eq_nil_of_length_eq_zero rightEmpty]
  · rw [if_neg none]
    obtain ⟨after, ran, sound, same, length, agree⟩ := loop
    refine ⟨after, ran, ⟨fun _ => sound, length, ?_⟩, agree⟩
    intro size all limb member
    have some_limb : 0 < bank.limb.length := by
      rw [← length]
      exact List.length_pos_of_mem member
    have first := List.getElem_mem some_limb
    rw [same limb member, ← all _ first, writeWords _ first]

end Bank

end Fideslib.Allocation
