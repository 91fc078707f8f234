/-
This file shows that requests and frees keep the books of the pool.
-/

import Fideslib.DeviceMemory.Books

namespace Fideslib.DeviceMemory

open MemoryRegion

namespace Books

variable {memory : Memory} {live : List Allocation}

/-- A chunk may move between the free list of a class and its live chunks. -/
theorem exchange (books : Books memory live) {after : List Allocation} {device : Device}
    {bytes : Nat} {limbs : List Address}
    (directs : (directRegions after).Perm (directRegions live))
    (own : (limbs ++ pooledChunks after device bytes).Perm
      (memory.freeLimb device bytes ++ pooledChunks live device bytes))
    (others : ∀ other otherBytes, ¬(other = device ∧ otherBytes = bytes) →
      (pooledChunks after other otherBytes).Perm (pooledChunks live other otherBytes)) :
    Books (memory.setFreeLimb device bytes limbs) after where
  apart := books.apart
  filled := books.filled
  registered := by
    simp only [Memory.slabs_setFreeLimb]
    exact books.registered
  once := by
    simp only [Memory.slabs_setFreeLimb]
    exact books.once
  owned := by
    simp only [Memory.slabs_setFreeLimb]
    exact books.owned
  direct := by
    simp only [Memory.slabs_setFreeLimb]
    exact fun region listed => books.direct region (directs.mem_iff.mp listed)
  directs := directs.nodup_iff.mpr books.directs
  partition := by
    intro other otherBytes
    rw [Memory.freeLimb_setFreeLimb, Memory.slabs_setFreeLimb]
    split
    case isTrue same =>
      obtain ⟨rfl, rfl⟩ := same
      exact own.trans (books.partition other otherBytes)
    case isFalse differs =>
      exact ((others other otherBytes differs).append_left _).trans (books.partition other otherBytes)

/-- A region that shares no byte with the known ones is new to the driver and to the pool. -/
theorem unknown (books : Books memory live) {region : Region} (positive : 0 < region.bytes)
    (fresh : ∀ known ∈ memory.driver, region.Apart known) :
    region ∉ memory.driver ∧ ∀ device bytes, region ∉ memory.slabs device bytes := by
  have new : region ∉ memory.driver := by
    intro listed
    have apart := fresh region listed
    unfold Region.Apart at apart
    omega
  exact ⟨new, fun device bytes listed => new (books.registered device bytes region listed).1⟩

theorem slabs_refill (memory : Memory) (device other : Device) (size : SizeClass) (base : Address)
    (otherBytes : Nat) :
    (memory.refill device size base).slabs other otherBytes =
      if other = device ∧ otherBytes = size.bytes then
        memory.slabs device size.bytes ++ [⟨base, size.slabBytes⟩]
      else memory.slabs other otherBytes := by
  rw [Memory.refill, Memory.slabs_setFreeLimb, Memory.slabs_setSlabs]
  rfl

theorem freeLimb_refill (memory : Memory) (device other : Device) {size : SizeClass} (base : Address)
    (otherBytes : Nat) (positive : 0 < size.bytes) (whole : size.bytes ∣ size.slabBytes)
    (room : size.slabBytes + size.bytes ≤ 2 ^ 32) :
    (memory.refill device size base).freeLimb other otherBytes =
      if other = device ∧ otherBytes = size.bytes then
        memory.freeLimb device size.bytes ++ (⟨base, size.slabBytes⟩ : Region).chunks size.bytes
      else memory.freeLimb other otherBytes := by
  rw [Memory.refill, Memory.freeLimb_setFreeLimb, Memory.freeLimb_setSlabs,
    carve_eq_chunks positive whole room]
  rfl

/-- The new slab is the only one that the class did not have. -/
theorem mem_slabs_refill {device other : Device} {size : SizeClass} {base : Address}
    {otherBytes : Nat} {slab : GPUSlab}
    (listed : slab ∈ (memory.refill device size base).slabs other otherBytes) :
    slab ∈ memory.slabs other otherBytes ∨
      slab = ⟨base, size.slabBytes⟩ ∧ other = device ∧ otherBytes = size.bytes := by
  rw [slabs_refill] at listed
  split at listed
  case isTrue same =>
    obtain ⟨rfl, rfl⟩ := same
    rcases List.mem_append.mp listed with old | new
    · exact Or.inl old
    · exact Or.inr ⟨List.mem_singleton.mp new, rfl, rfl⟩
  case isFalse => exact Or.inl listed

/-- A slab of a fresh region adds its chunks to the free list of its class. -/
theorem refill (books : Books memory live) {bytes : Int} {cache : Bool} (word : bytes < 2 ^ 31)
    (pooled : (sizeClass bytes cache).pooled) (device : Device) {base : Address}
    (fresh : ∀ region ∈ memory.driver,
      Region.Apart ⟨base, (sizeClass bytes cache).slabBytes⟩ region) :
    Books (memory.refill device (sizeClass bytes cache) base) live := by
  obtain ⟨whole, filled, room⟩ := sizeClass_slab word pooled
  have positive := sizeClass_positive bytes cache
  generalize sizeClass bytes cache = size at *
  obtain ⟨unknown, unregistered⟩ := books.unknown filled fresh
  constructor
  case apart => exact List.pairwise_cons.mpr ⟨fresh, books.apart⟩
  case filled =>
    intro region listed
    rcases List.mem_cons.mp listed with rfl | old
    · exact filled
    · exact books.filled region old
  case registered =>
    intro other otherBytes slab listed
    rcases mem_slabs_refill listed with old | ⟨rfl, -, rfl⟩
    · have known := books.registered other otherBytes slab old
      exact ⟨List.mem_cons_of_mem _ known.1, known.2⟩
    · exact ⟨List.mem_cons_self, positive⟩
  case once =>
    intro other otherBytes
    rw [slabs_refill]
    split
    case isTrue =>
      refine List.nodup_append.mpr ⟨books.once device size.bytes, List.nodup_singleton _, ?_⟩
      intro slab old new added same
      rw [same, List.mem_singleton.mp added] at old
      exact unregistered device size.bytes old
    case isFalse => exact books.once other otherBytes
  case owned =>
    intro first firstBytes second secondBytes slab listed otherListed
    rcases mem_slabs_refill listed with old | ⟨rfl, rfl, rfl⟩
    · rcases mem_slabs_refill otherListed with known | ⟨rfl, -, -⟩
      · exact books.owned _ _ _ _ slab old known
      · exact absurd old (unregistered first firstBytes)
    · rcases mem_slabs_refill otherListed with known | ⟨-, rfl, rfl⟩
      · exact absurd known (unregistered second secondBytes)
      · exact ⟨rfl, rfl⟩
  case direct =>
    intro region listed
    obtain ⟨known, outside⟩ := books.direct region listed
    refine ⟨List.mem_cons_of_mem _ known, fun other otherBytes slab => ?_⟩
    rcases mem_slabs_refill slab with old | ⟨rfl, -, -⟩
    · exact outside other otherBytes old
    · exact unknown known
  case directs => exact books.directs
  case partition =>
    intro other otherBytes
    rw [freeLimb_refill memory device other base otherBytes positive whole room, slabs_refill]
    split
    case isTrue same =>
      obtain ⟨rfl, rfl⟩ := same
      rw [List.flatMap_append, List.flatMap_singleton, List.append_assoc]
      have swapped : ((⟨base, size.slabBytes⟩ : Region).chunks size.bytes ++
          pooledChunks live other size.bytes).Perm (pooledChunks live other size.bytes ++
            (⟨base, size.slabBytes⟩ : Region).chunks size.bytes) := List.perm_append_comm
      have moved := swapped.append_left (memory.freeLimb other size.bytes)
      rw [← List.append_assoc (memory.freeLimb other size.bytes) (pooledChunks live other size.bytes)]
        at moved
      exact moved.trans ((books.partition other size.bytes).append_right _)
    case isFalse => exact books.partition other otherBytes

/-- The pool hands out the last free chunk of a class. -/
theorem hand (books : Books memory live) {allocation : Allocation}
    (pooled : allocation.size.pooled)
    (last : (memory.freeLimb allocation.device allocation.size.bytes).getLast? =
      some allocation.ptr) :
    Books (memory.setFreeLimb allocation.device allocation.size.bytes
      (memory.freeLimb allocation.device allocation.size.bytes).dropLast) (allocation :: live) := by
  apply books.exchange
  · rw [directRegions_cons_pooled pooled]
  · rw [pooledChunks_cons pooled, if_pos ⟨rfl, rfl⟩]
    have whole := List.dropLast_append_getLast? allocation.ptr last
    rw [← whole, List.dropLast_concat, List.append_assoc, List.singleton_append]
  · intro other otherBytes differs
    rw [pooledChunks_cons pooled, if_neg differs]

/-- A returned chunk joins the free list of its class. -/
theorem takeBack (books : Books memory live) {allocation : Allocation} (held : allocation ∈ live)
    (pooled : allocation.size.pooled) :
    Books (memory.setFreeLimb allocation.device allocation.size.bytes
      (memory.freeLimb allocation.device allocation.size.bytes ++ [allocation.ptr]))
      (live.erase allocation) := by
  have split := List.perm_cons_erase held
  apply books.exchange
  · have directs := directRegions_perm split
    rw [directRegions_cons_pooled pooled] at directs
    exact directs.symm
  · have chunks := pooledChunks_perm split allocation.device allocation.size.bytes
    rw [pooledChunks_cons pooled, if_pos ⟨rfl, rfl⟩] at chunks
    rw [List.append_assoc, List.singleton_append]
    exact chunks.symm.append_left _
  · intro other otherBytes differs
    have chunks := pooledChunks_perm split other otherBytes
    rw [pooledChunks_cons pooled, if_neg differs] at chunks
    exact chunks.symm

/-- A large request receives a region of its own. -/
theorem serve (books : Books memory live) {allocation : Allocation}
    (direct : allocation.size.pooled = false)
    (fresh : ∀ region ∈ memory.driver, allocation.region.Apart region) :
    Books (memory.cudaMallocAsync allocation.region) (allocation :: live) := by
  have positive : 0 < allocation.region.bytes := sizeClass_positive allocation.bytes allocation.cache
  obtain ⟨unknown, unregistered⟩ := books.unknown positive fresh
  constructor
  case apart => exact List.pairwise_cons.mpr ⟨fresh, books.apart⟩
  case filled =>
    intro region listed
    rcases List.mem_cons.mp listed with rfl | old
    · exact positive
    · exact books.filled region old
  case registered =>
    intro device bytes slab listed
    have known := books.registered device bytes slab listed
    exact ⟨List.mem_cons_of_mem _ known.1, known.2⟩
  case once => exact books.once
  case owned => exact books.owned
  case direct =>
    intro region listed
    rw [directRegions_cons direct] at listed
    rcases List.mem_cons.mp listed with rfl | old
    · exact ⟨List.mem_cons_self, unregistered⟩
    · obtain ⟨known, outside⟩ := books.direct region old
      exact ⟨List.mem_cons_of_mem _ known, outside⟩
  case directs =>
    rw [directRegions_cons direct]
    exact List.nodup_cons.mpr
      ⟨fun listed => unknown (books.direct _ listed).1, books.directs⟩
  case partition =>
    intro device bytes
    rw [pooledChunks_cons_direct direct]
    exact books.partition device bytes

/-- The driver takes the region of a large request back. -/
theorem retire (books : Books memory live) {allocation : Allocation} (held : allocation ∈ live)
    (direct : allocation.size.pooled = false) :
    Books (memory.cudaFreeAsync allocation.ptr) (live.erase allocation) := by
  have split := List.perm_cons_erase held
  have directs := directRegions_perm split
  rw [directRegions_cons direct] at directs
  have own : allocation.region ∈ directRegions live := directs.mem_iff.mpr List.mem_cons_self
  obtain ⟨known, outside⟩ := books.direct _ own
  have alone : allocation.region ∉ directRegions (live.erase allocation) :=
    (List.nodup_cons.mp (directs.nodup_iff.mp books.directs)).1
  have stays {region : Region} (listed : region ∈ memory.driver)
      (different : region ≠ allocation.region) :
      region ∈ (memory.cudaFreeAsync allocation.ptr).driver := by
    refine List.mem_filter.mpr ⟨listed, decide_eq_true fun same => different ?_⟩
    exact books.eq_of_base listed known same
  constructor
  case apart => exact books.apart.filter _
  case filled => exact fun region listed => books.filled region (List.mem_filter.mp listed).1
  case registered =>
    intro device bytes slab listed
    obtain ⟨stored, positive⟩ := books.registered device bytes slab listed
    refine ⟨stays stored fun same => outside device bytes ?_, positive⟩
    rw [← same]
    exact listed
  case once => exact books.once
  case owned => exact books.owned
  case direct =>
    intro region listed
    have before : region ∈ directRegions live :=
      directs.mem_iff.mpr (List.mem_cons_of_mem _ listed)
    obtain ⟨stored, unregistered⟩ := books.direct region before
    refine ⟨stays stored fun same => alone ?_, unregistered⟩
    rw [← same]
    exact listed
  case directs => exact (List.nodup_cons.mp (directs.nodup_iff.mp books.directs)).2
  case partition =>
    intro device bytes
    have chunks := pooledChunks_perm split device bytes
    rw [pooledChunks_cons_direct direct] at chunks
    exact (chunks.symm.append_left _).trans (books.partition device bytes)

/-- A request keeps the books, whatever the driver answers. -/
theorem gpuMalloc (books : Books memory live) {answer : Option Address} {device : Device}
    {bytes : Int} {cache : Bool} {returned : Option Address} {after : Memory}
    (word : bytes < 2 ^ 31)
    (fresh : ∀ base, answer = some base → ∀ region ∈ memory.driver,
      Region.Apart ⟨base, (sizeClass bytes cache).driverBytes⟩ region)
    (returns : memory.GPUmalloc answer device bytes cache = some (returned, after)) :
    Books after (match returned with
      | none => live
      | some ptr => ⟨ptr, device, bytes, cache⟩ :: live) := by
  unfold Memory.GPUmalloc at returns
  dsimp only at returns
  split at returns
  case isTrue pooled =>
    obtain ⟨filled, refilled, handed⟩ := Option.map_eq_some_iff.mp returns
    have kept : Books filled live ∧ filled.freeLimb device (sizeClass bytes cache).bytes ≠ [] := by
      split at refilled
      case isTrue empty =>
        obtain ⟨base, answered, rfl⟩ := Option.map_eq_some_iff.mp refilled
        have apart := fresh base answered
        rw [SizeClass.driverBytes, if_pos pooled] at apart
        refine ⟨books.refill word pooled device apart, ?_⟩
        obtain ⟨whole, positive, room⟩ := sizeClass_slab word pooled
        rw [Memory.refill, Memory.freeLimb_setFreeLimb, if_pos ⟨rfl, rfl⟩]
        have first : carve base (sizeClass bytes cache).slabBytes (sizeClass bytes cache).bytes
            ((sizeClass bytes cache).slabBytes / (sizeClass bytes cache).bytes + 1) 0 ≠ [] := by
          rw [carve, if_pos positive]
          exact List.cons_ne_nil _ _
        exact List.append_ne_nil_of_right_ne_nil _ first
      case isFalse filledAlready =>
        cases refilled
        exact ⟨books, fun empty => filledAlready (List.isEmpty_iff.mpr empty)⟩
    obtain ⟨keptBooks, nonempty⟩ := kept
    have last := List.getLast?_eq_some_getLast nonempty
    rw [last] at handed
    cases handed
    exact @hand filled live keptBooks ⟨_, device, bytes, cache⟩ pooled last
  case isFalse direct =>
    cases answer with
    | none =>
        cases returns
        exact books
    | some base =>
        cases returns
        have apart := fresh base rfl
        rw [SizeClass.driverBytes, if_neg direct] at apart
        have large : (⟨base, device, bytes, cache⟩ : Allocation).size.pooled = false :=
          Bool.eq_false_iff.mpr direct
        exact books.serve large apart

/-- A free of a live allocation keeps the books. -/
theorem gpuFree (books : Books memory live) {allocation : Allocation} (held : allocation ∈ live) :
    Books (memory.GPUfree allocation.ptr allocation.device allocation.bytes allocation.cache)
      (live.erase allocation) := by
  unfold Memory.GPUfree
  dsimp only
  split
  case isTrue pooled => exact books.takeBack held pooled
  case isFalse direct => exact books.retire held (Bool.eq_false_iff.mpr direct)

end Books
end Fideslib.DeviceMemory
