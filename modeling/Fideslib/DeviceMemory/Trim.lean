/-
This file shows that a trim frees idle slabs only, and settles the runs of the pool.
-/

import Fideslib.DeviceMemory.Requests

namespace Fideslib.DeviceMemory

open MemoryRegion

/-- An index list filtered by its entries alone gives the filtered list. -/
theorem zipIdx_filter_map_fst {Entry : Type} (entries : List Entry) {choose : Entry × Nat → Bool}
    {keep : Entry → Bool}
    (same : ∀ entry place, entries[place]? = some entry → choose (entry, place) = keep entry) :
    (entries.zipIdx.filter choose).map Prod.fst = entries.filter keep := by
  have agree : entries.zipIdx.filter choose = entries.zipIdx.filter (keep ∘ Prod.fst) := by
    apply List.filter_congr
    rintro ⟨entry, place⟩ listed
    exact same entry place (List.mem_zipIdx_iff_getElem?.mp listed)
  have whole := List.zipIdx_map_fst 0 entries
  rw [agree, ← List.filter_map, whole]

/-- A list without the pieces of some entries is the list of the pieces of the other entries. -/
theorem flatMap_drop {Entry Piece : Type} (entries : List Entry) (pieces : Entry → List Piece)
    (drop : Entry → Bool) :
    entries.flatMap (fun entry => if drop entry then [] else pieces entry) =
      (entries.filter fun entry => !drop entry).flatMap pieces := by
  induction entries with
  | nil => rfl
  | cons entry rest inductionHypothesis =>
      rw [List.flatMap_cons, List.filter_cons, inductionHypothesis]
      cases drop entry <;> rfl

namespace Books

variable {memory : Memory} {live : List Allocation}

/-- This test counts the free chunks inside a slab. -/
def idleSlab (memory : Memory) (device : Device) (bytes : Nat) (slab : GPUSlab) : Bool :=
  ((memory.freeLimb device bytes).filter fun ptr => slab.Holds ptr).length = slab.bytes / bytes

theorem idle_eq (books : Books memory live) (device : Device) (bytes : Nat) {slab : GPUSlab}
    {place : Nat} (found : (memory.slabs device bytes)[place]? = some slab) :
    Memory.idle (memory.slabs device bytes) (memory.freeLimb device bytes) bytes (slab, place) =
      idleSlab memory device bytes slab := by
  unfold Memory.idle idleSlab Memory.freeCount
  have same (ptr : Address) :
      ((memory.slabs device bytes).findIdx? (fun slab => slab.Holds ptr) = some place) =
        slab.Holds ptr :=
    propext (Region.findIdx?_holds (books.slabs_apart device bytes) found)
  simp only [same]

/-- The counted slabs are the freed slabs. -/
theorem freed_eq (books : Books memory live) (device : Device) (bytes : Nat) :
    ((memory.slabs device bytes).zipIdx.filter (Memory.idle (memory.slabs device bytes)
        (memory.freeLimb device bytes) bytes)).map Prod.fst =
      (memory.slabs device bytes).filter (idleSlab memory device bytes) :=
  zipIdx_filter_map_fst _ fun _ _ found => books.idle_eq device bytes found

theorem survivors_eq (books : Books memory live) (device : Device) (bytes : Nat) :
    ((memory.slabs device bytes).zipIdx.filter fun entry => !Memory.idle
        (memory.slabs device bytes) (memory.freeLimb device bytes) bytes entry).map Prod.fst =
      (memory.slabs device bytes).filter fun slab => !idleSlab memory device bytes slab :=
  zipIdx_filter_map_fst _ fun _ _ found => by rw [books.idle_eq device bytes found]

/-- The free chunks and the live chunks inside a slab are the chunks it was cut into. -/
theorem inside_perm (books : Books memory live) {device : Device} {bytes : Nat} {slab : GPUSlab}
    (listed : slab ∈ memory.slabs device bytes) :
    ((memory.freeLimb device bytes).filter (fun ptr => slab.Holds ptr) ++
      (pooledChunks live device bytes).filter fun ptr => slab.Holds ptr).Perm
        (slab.chunks bytes) := by
  have cut := (books.partition device bytes).filter fun ptr => slab.Holds ptr
  rw [List.filter_append, Region.filter_chunks (books.registered device bytes slab listed).2
    (books.slabs_apart device bytes) listed] at cut
  exact cut

/-- An idle slab holds no live chunk. -/
theorem idle_not_live (books : Books memory live) {device : Device} {bytes : Nat}
    {slab : GPUSlab} (listed : slab ∈ memory.slabs device bytes)
    (idle : idleSlab memory device bytes slab) {ptr : Address}
    (held : ptr ∈ pooledChunks live device bytes) : ¬slab.Holds ptr := by
  intro holds
  have count := (books.inside_perm listed).length_eq
  rw [List.length_append, Region.length_chunks, of_decide_eq_true idle] at count
  have none : (pooledChunks live device bytes).filter (fun ptr => slab.Holds ptr) = [] :=
    List.eq_nil_of_length_eq_zero (by omega)
  exact List.filter_eq_nil_iff.mp none ptr held (decide_eq_true holds)

/-- Every chunk of an idle slab is free. -/
theorem idle_free (books : Books memory live) {device : Device} {bytes : Nat} {slab : GPUSlab}
    (listed : slab ∈ memory.slabs device bytes) (idle : idleSlab memory device bytes slab)
    {ptr : Address} (chunk : ptr ∈ slab.chunks bytes) : ptr ∈ memory.freeLimb device bytes := by
  rcases List.mem_append.mp ((books.inside_perm listed).mem_iff.mpr chunk) with free | held
  · exact (List.mem_filter.mp free).1
  · obtain ⟨known, holds⟩ := List.mem_filter.mp held
    exact absurd (of_decide_eq_true holds) (books.idle_not_live listed idle known)

end Books

/-- A trim of a device gives back slabs whose chunks are all free, and no free chunk points into
what was given back. -/
structure Trims (device : Device) (before after : Memory) : Prop where
  driver : after.driver ⊆ before.driver
  limbs : ∀ other bytes, after.freeLimb other bytes ⊆ before.freeLimb other bytes
  slabs : ∀ other bytes, after.slabs other bytes ⊆ before.slabs other bytes
  freed : ∀ region ∈ before.driver, region ∉ after.driver →
    ∃ bytes, region ∈ before.slabs device bytes ∧
      (∀ ptr ∈ region.chunks bytes, ptr ∈ before.freeLimb device bytes) ∧
      ∀ other otherBytes, region ∉ after.slabs other otherBytes ∧
        ∀ ptr ∈ after.freeLimb other otherBytes, ¬region.Holds ptr

namespace Trims

variable {device : Device} {first second third : Memory}

theorem refl (device : Device) (memory : Memory) : Trims device memory memory where
  driver := List.Subset.refl _
  limbs := fun _ _ => List.Subset.refl _
  slabs := fun _ _ => List.Subset.refl _
  freed := fun _ listed gone => absurd listed gone

theorem trans (left : Trims device first second) (right : Trims device second third) :
    Trims device first third where
  driver := List.Subset.trans right.driver left.driver
  limbs := fun other bytes => List.Subset.trans (right.limbs other bytes) (left.limbs other bytes)
  slabs := fun other bytes => List.Subset.trans (right.slabs other bytes) (left.slabs other bytes)
  freed := by
    intro region listed gone
    by_cases between : region ∈ second.driver
    · obtain ⟨bytes, registered, free, clear⟩ := right.freed region between gone
      exact ⟨bytes, left.slabs device bytes registered,
        fun ptr chunk => left.limbs device bytes (free ptr chunk), clear⟩
    · obtain ⟨bytes, registered, free, clear⟩ := left.freed region listed between
      refine ⟨bytes, registered, free, fun other otherBytes => ?_⟩
      obtain ⟨absent, outside⟩ := clear other otherBytes
      exact ⟨fun known => absent (right.slabs other otherBytes known),
        fun ptr known => outside ptr (right.limbs other otherBytes known)⟩

end Trims

namespace Books

variable {memory : Memory} {live : List Allocation}

/-- The memory has lost the idle slabs of one class with their chunks. -/
structure DropsIdle (device : Device) (bytes : Nat) (memory after : Memory) : Prop where
  driver : after.driver = memory.driver.filter fun region =>
    ((memory.slabs device bytes).filter (idleSlab memory device bytes)).all fun slab =>
      region.base ≠ slab.base
  limbs : ∀ other otherBytes, after.freeLimb other otherBytes =
    if other = device ∧ otherBytes = bytes then
      (memory.freeLimb device bytes).filter fun ptr =>
        !((memory.slabs device bytes).filter (idleSlab memory device bytes)).any fun slab =>
          slab.Holds ptr
    else memory.freeLimb other otherBytes
  slabs : ∀ other otherBytes, after.slabs other otherBytes =
    if other = device ∧ otherBytes = bytes then
      (memory.slabs device bytes).filter fun slab => !idleSlab memory device bytes slab
    else memory.slabs other otherBytes

/-- A round without an idle slab changes nothing, and any other round drops the idle slabs. -/
theorem trimClass_cases (books : Books memory live) (device : Device) (bytes : Nat) :
    memory.trimClass device bytes = memory ∨
      DropsIdle device bytes memory (memory.trimClass device bytes) := by
  unfold Memory.trimClass
  dsimp only
  rw [books.freed_eq device bytes, books.survivors_eq device bytes]
  split
  case isTrue => exact Or.inl rfl
  case isFalse =>
    right
    rw [Memory.foldl_cudaFreeAsync]
    refine ⟨rfl, fun other otherBytes => ?_, fun other otherBytes => ?_⟩
    · rw [Memory.freeLimb_setSlabs, Memory.freeLimb_setFreeLimb]
      rfl
    · rw [Memory.slabs_setSlabs, Memory.slabs_setFreeLimb]
      rfl

/-- Without the idle slabs and their free chunks a class is still cut as its slabs are. -/
theorem drop_perm (books : Books memory live) (device : Device) (bytes : Nat) :
    ((memory.freeLimb device bytes).filter (fun ptr =>
        !((memory.slabs device bytes).filter (idleSlab memory device bytes)).any fun slab =>
          slab.Holds ptr) ++ pooledChunks live device bytes).Perm
      (((memory.slabs device bytes).filter fun slab => !idleSlab memory device bytes slab).flatMap
        (Region.chunks bytes)) := by
  generalize freedSlabs : (memory.slabs device bytes).filter
    (idleSlab memory device bytes) = freed
  have cut := (books.partition device bytes).filter fun ptr =>
    !freed.any fun slab => slab.Holds ptr
  have held : (pooledChunks live device bytes).filter (fun ptr =>
      !freed.any fun slab => slab.Holds ptr) = pooledChunks live device bytes := by
    refine List.filter_eq_self.mpr fun ptr chunk => ?_
    rw [Bool.not_eq_true', List.any_eq_false]
    intro slab listed holds
    rw [← freedSlabs] at listed
    obtain ⟨registered, idle⟩ := List.mem_filter.mp listed
    exact books.idle_not_live registered idle chunk (of_decide_eq_true holds)
  have pieces : ((memory.slabs device bytes).flatMap (Region.chunks bytes)).filter
      (fun ptr => !freed.any fun slab => slab.Holds ptr) =
      (memory.slabs device bytes).flatMap fun slab =>
        if idleSlab memory device bytes slab then [] else slab.chunks bytes := by
    rw [List.filter_flatMap]
    refine List.flatMap_congr fun slab registered => ?_
    obtain ⟨known, positive⟩ := books.registered device bytes slab registered
    split
    case isTrue idle =>
      rw [List.filter_eq_nil_iff]
      intro ptr chunk outside
      rw [Bool.not_eq_true', List.any_eq_false] at outside
      refine outside slab ?_ (decide_eq_true (Region.chunk_holds positive chunk))
      rw [← freedSlabs]
      exact List.mem_filter.mpr ⟨registered, idle⟩
    case isFalse busy =>
      refine List.filter_eq_self.mpr fun ptr chunk => ?_
      rw [Bool.not_eq_true', List.any_eq_false]
      intro holder listed holds
      rw [← freedSlabs] at listed
      obtain ⟨holderRegistered, idle⟩ := List.mem_filter.mp listed
      have different : slab ≠ holder := fun equal => busy (by rw [equal]; exact idle)
      have apart := books.separate known
        (books.registered device bytes holder holderRegistered).1 different
      exact apart.not_holds (Region.chunk_holds positive chunk) (of_decide_eq_true holds)
  rw [List.filter_append, held, pieces, flatMap_drop] at cut
  exact cut

namespace DropsIdle

variable {device : Device} {bytes : Nat} {after : Memory}
  (drops : DropsIdle device bytes memory after)

include drops

theorem slabs_subset (other : Device) (otherBytes : Nat) :
    after.slabs other otherBytes ⊆ memory.slabs other otherBytes := by
  rw [drops.slabs]
  split
  case isTrue same =>
    obtain ⟨rfl, rfl⟩ := same
    exact List.filter_subset_self _
  case isFalse => exact List.Subset.refl _

theorem limbs_subset (other : Device) (otherBytes : Nat) :
    after.freeLimb other otherBytes ⊆ memory.freeLimb other otherBytes := by
  rw [drops.limbs]
  split
  case isTrue same =>
    obtain ⟨rfl, rfl⟩ := same
    exact List.filter_subset_self _
  case isFalse => exact List.Subset.refl _

/-- The driver keeps a region that is no idle slab of the class. -/
theorem stays (books : Books memory live) {region : Region} (listed : region ∈ memory.driver)
    (kept : ∀ slab ∈ memory.slabs device bytes, idleSlab memory device bytes slab →
      region ≠ slab) : region ∈ after.driver := by
  rw [drops.driver]
  refine List.mem_filter.mpr ⟨listed, List.all_eq_true.mpr fun slab freed => ?_⟩
  obtain ⟨registered, idle⟩ := List.mem_filter.mp freed
  refine decide_eq_true fun base => kept slab registered idle ?_
  exact books.eq_of_base listed (books.registered device bytes slab registered).1 base

/-- No slab that is still registered was idle. -/
theorem survives (books : Books memory live) {other : Device} {otherBytes : Nat} {slab : GPUSlab}
    (listed : slab ∈ after.slabs other otherBytes) (freed : GPUSlab)
    (registered : freed ∈ memory.slabs device bytes)
    (idle : idleSlab memory device bytes freed) : slab ≠ freed := by
  rintro rfl
  obtain ⟨rfl, rfl⟩ := books.owned _ _ _ _ slab (drops.slabs_subset _ _ listed) registered
  rw [drops.slabs, if_pos ⟨rfl, rfl⟩] at listed
  have busy := (List.mem_filter.mp listed).2
  rw [idle] at busy
  cases busy

/-- No remaining free chunk lies in a slab that was idle. -/
theorem not_holds (books : Books memory live) {region : Region}
    (registered : region ∈ memory.slabs device bytes) (idle : idleSlab memory device bytes region)
    {other : Device} {otherBytes : Nat} {ptr : Address}
    (free : ptr ∈ after.freeLimb other otherBytes) : ¬region.Holds ptr := by
  intro holds
  have listed := (books.registered device bytes region registered).1
  obtain ⟨slab, stored, chunk⟩ := books.chunk_of_mem
    (List.mem_append_left _ (drops.limbs_subset other otherBytes free))
  obtain ⟨known, positive⟩ := books.registered other otherBytes slab stored
  by_cases same : slab = region
  · subst same
    obtain ⟨rfl, rfl⟩ := books.owned _ _ _ _ slab stored registered
    rw [drops.limbs, if_pos ⟨rfl, rfl⟩] at free
    have outside := (List.mem_filter.mp free).2
    rw [Bool.not_eq_true', List.any_eq_false] at outside
    exact outside slab (List.mem_filter.mpr ⟨registered, idle⟩) (decide_eq_true holds)
  · exact (books.separate known listed same).not_holds (Region.chunk_holds positive chunk) holds

theorem books (books : Books memory live) : Books after live := by
  constructor
  case apart =>
    rw [drops.driver]
    exact books.apart.filter _
  case filled =>
    rw [drops.driver]
    exact fun region listed => books.filled region (List.mem_filter.mp listed).1
  case registered =>
    intro other otherBytes slab listed
    obtain ⟨known, positive⟩ :=
      books.registered other otherBytes slab (drops.slabs_subset _ _ listed)
    exact ⟨drops.stays books known (drops.survives books listed), positive⟩
  case once =>
    intro other otherBytes
    rw [drops.slabs]
    split
    case isTrue => exact (books.once device bytes).filter _
    case isFalse => exact books.once other otherBytes
  case owned =>
    exact fun first firstBytes second secondBytes slab listed otherListed =>
      books.owned _ _ _ _ slab (drops.slabs_subset _ _ listed)
        (drops.slabs_subset _ _ otherListed)
  case direct =>
    intro region listed
    obtain ⟨known, outside⟩ := books.direct region listed
    refine ⟨drops.stays books known ?_, fun other otherBytes stored =>
      outside other otherBytes (drops.slabs_subset _ _ stored)⟩
    rintro slab registered - rfl
    exact outside device bytes registered
  case directs => exact books.directs
  case partition =>
    intro other otherBytes
    rw [drops.limbs, drops.slabs]
    split
    case isFalse => exact books.partition other otherBytes
    case isTrue same =>
      obtain ⟨rfl, rfl⟩ := same
      exact books.drop_perm other otherBytes

theorem trims (books : Books memory live) : Trims device memory after := by
  constructor
  case driver =>
    rw [drops.driver]
    exact List.filter_subset_self _
  case limbs => exact drops.limbs_subset
  case slabs => exact drops.slabs_subset
  case freed =>
    intro region listed gone
    obtain ⟨registered, idle⟩ :
        region ∈ memory.slabs device bytes ∧ idleSlab memory device bytes region := by
      by_contra never
      refine gone (drops.stays books listed fun slab registered idle same => never ?_)
      rw [same]
      exact ⟨registered, idle⟩
    exact ⟨bytes, registered, fun ptr => books.idle_free registered idle, fun other otherBytes =>
      ⟨fun stored => drops.survives books stored region registered idle rfl,
        fun ptr free => drops.not_holds books registered idle free⟩⟩

end DropsIdle

/-- One round keeps the books and gives back idle slabs only. -/
theorem trimClass (books : Books memory live) (device : Device) (bytes : Nat) :
    Books (memory.trimClass device bytes) live ∧
      Trims device memory (memory.trimClass device bytes) := by
  rcases books.trimClass_cases device bytes with same | drops
  · rw [same]
    exact ⟨books, Trims.refl device memory⟩
  · exact ⟨drops.books books, drops.trims books⟩

/-- A trim visits every size class of a device. -/
theorem gpuTrim (books : Books memory live) (device : Device) :
    Books (memory.GPUtrim device) live ∧ Trims device memory (memory.GPUtrim device) := by
  unfold Memory.GPUtrim
  generalize (memory.pools device).slabRegistry.keys = classes
  induction classes generalizing memory with
  | nil => exact ⟨books, Trims.refl device memory⟩
  | cons bytes rest inductionHypothesis =>
      obtain ⟨kept, trimmed⟩ := books.trimClass device bytes
      obtain ⟨keptRest, trimmedRest⟩ := inductionHypothesis kept
      exact ⟨keptRest, trimmed.trans trimmedRest⟩

end Books
end Fideslib.DeviceMemory
