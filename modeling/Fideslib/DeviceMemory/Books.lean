/-
This file relates the free lists, the slabs and the live allocations of the pool.
-/

import Fideslib.DeviceMemory.Pool

namespace Fideslib.DeviceMemory

open MemoryRegion

section SizeClasses

/-- The rounds double the size until it is enough. -/
theorem nextPow2_eq_pow (bytes : Int) (fuel exponent : Nat) :
    ∃ more ≤ fuel, nextPow2 bytes fuel (2 ^ exponent) = 2 ^ (exponent + more) := by
  induction fuel generalizing exponent with
  | zero => exact ⟨0, le_rfl, rfl⟩
  | succ fuel inductionHypothesis =>
      rw [nextPow2]
      split
      · obtain ⟨more, bound, same⟩ := inductionHypothesis (exponent + 1)
        rw [← pow_succ, same]
        exact ⟨more + 1, by omega, by congr 1; omega⟩
      · exact ⟨0, Nat.zero_le _, rfl⟩

/-- Every request has a size. -/
theorem sizeClass_positive (bytes : Int) (cache : Bool) : 0 < (sizeClass bytes cache).bytes := by
  unfold sizeClass
  split
  · obtain ⟨more, -, same⟩ := nextPow2_eq_pow bytes 6 10
    change 0 < nextPow2 bytes 6 (2 ^ 10)
    rw [same]
    exact Nat.two_pow_pos _
  · dsimp only
    omega

/-- A slab is cut into whole chunks, and its loop counter does not wrap. -/
theorem sizeClass_slab {bytes : Int} {cache : Bool} (word : bytes < 2 ^ 31)
    (pooled : (sizeClass bytes cache).pooled) :
    (sizeClass bytes cache).bytes ∣ (sizeClass bytes cache).slabBytes ∧
      0 < (sizeClass bytes cache).slabBytes ∧
      (sizeClass bytes cache).slabBytes + (sizeClass bytes cache).bytes ≤ 2 ^ 32 := by
  have positive := sizeClass_positive bytes cache
  unfold sizeClass at pooled positive ⊢
  split
  case isTrue small =>
    obtain ⟨more, bound, same⟩ := nextPow2_eq_pow bytes 6 10
    have power : nextPow2 bytes 6 1024 = 1024 * 2 ^ more := same.trans (pow_add 2 10 more)
    have room : 2 ^ more ≤ 2 ^ 6 := Nat.pow_le_pow_right Nat.two_pos bound
    have filled := Nat.two_pow_pos more
    dsimp only [SizeClass.slabBytes]
    rw [power, Nat.mul_div_cancel_left _ (by decide)]
    exact ⟨⟨1024, by ring⟩, by omega, by omega⟩
  case isFalse large =>
    rw [if_neg large] at pooled positive
    have mask := (Bool.and_eq_true_iff.mp pooled).2
    obtain ⟨exponent, same⟩ :=
      (Nat.and_sub_one_eq_zero_iff_isPowerOfTwo positive.ne').mp (beq_iff_eq.mp mask)
    dsimp only [SizeClass.slabBytes] at same positive ⊢
    have bound : exponent ≤ 30 := by
      by_contra above
      have wide : 2 ^ 31 ≤ 2 ^ exponent := Nat.pow_le_pow_right Nat.two_pos (by omega)
      omega
    rw [same]
    have room : 2 ^ exponent ≤ 2 ^ 30 := Nat.pow_le_pow_right Nat.two_pos bound
    exact ⟨Nat.pow_dvd_pow 2 bound, by omega, by omega⟩

/-- The loop of a slab lists the chunks of its region. -/
theorem carve_eq_chunks {base slabBytes bytes : Nat} (positive : 0 < bytes)
    (whole : bytes ∣ slabBytes) (word : slabBytes + bytes ≤ 2 ^ 32) :
    carve base slabBytes bytes (slabBytes / bytes + 1) 0 =
      (⟨base, slabBytes⟩ : Region).chunks bytes := by
  obtain ⟨count, rfl⟩ := whole
  rw [Region.chunks, Nat.mul_div_cancel_left _ positive]
  have rounds (fuel done : Nat) (left : done + fuel = count) :
      carve base (bytes * count) bytes (fuel + 1) (done * bytes) =
        (List.range' done fuel).map fun index => base + index * bytes := by
    induction fuel generalizing done with
    | zero =>
        have ended : ¬done * bytes < bytes * count := by
          rw [← left, Nat.add_zero, Nat.mul_comm]
          exact lt_irrefl _
        rw [carve, if_neg ended]
        rfl
    | succ fuel inductionHypothesis =>
        have step : (done + 1) * bytes ≤ bytes * count := by
          rw [Nat.mul_comm bytes]
          exact Nat.mul_le_mul_right bytes (by omega)
        have next : (done * bytes + bytes) % 2 ^ 32 = (done + 1) * bytes := by
          rw [Nat.add_mul, Nat.one_mul] at step ⊢
          exact Nat.mod_eq_of_lt (by omega)
        have below : done * bytes < bytes * count := by
          rw [Nat.add_mul, Nat.one_mul] at step
          omega
        rw [carve, if_pos below, next, inductionHypothesis (done + 1) (by omega),
          List.range'_succ, List.map_cons]
  have all := rounds count 0 (Nat.zero_add _)
  rw [Nat.zero_mul] at all
  rw [all, List.range_eq_range']

end SizeClasses

namespace Memory

/-- A list stored in a map of one pool is read there only. -/
theorem lookup_update {A : Type} (field : Pool → AList fun _ : Nat => List A) (pools : Device → Pool)
    {device : Device} (other : Device) {bytes : Nat} (otherBytes : Nat) {changed : Pool}
    {values : List A} (stored : field changed = (field (pools device)).insert bytes values) :
    ((field (Function.update pools device changed other)).lookup otherBytes).getD [] =
      if other = device ∧ otherBytes = bytes then values
      else ((field (pools other)).lookup otherBytes).getD [] := by
  by_cases sameDevice : other = device
  · subst sameDevice
    rw [Function.update_self, stored]
    by_cases sameBytes : otherBytes = bytes
    · subst sameBytes
      rw [AList.lookup_insert, if_pos ⟨rfl, rfl⟩, Option.getD_some]
    · rw [AList.lookup_insert_ne sameBytes, if_neg fun same => sameBytes same.2]
  · rw [Function.update_of_ne sameDevice, if_neg fun same => sameDevice same.1]

theorem freeLimb_setFreeLimb (memory : Memory) (device other : Device) (bytes otherBytes : Nat)
    (limbs : List Address) :
    (memory.setFreeLimb device bytes limbs).freeLimb other otherBytes =
      if other = device ∧ otherBytes = bytes then limbs else memory.freeLimb other otherBytes := by
  exact lookup_update Pool.sizeToMemory memory.pools other otherBytes rfl

@[simp] theorem slabs_setFreeLimb (memory : Memory) (device other : Device)
    (bytes otherBytes : Nat) (limbs : List Address) :
    (memory.setFreeLimb device bytes limbs).slabs other otherBytes =
      memory.slabs other otherBytes := by
  unfold slabs setFreeLimb
  dsimp only
  rw [Function.update_apply]
  split
  case isTrue same =>
    subst same
    rfl
  case isFalse => rfl

theorem slabs_setSlabs (memory : Memory) (device other : Device) (bytes otherBytes : Nat)
    (slabs : List GPUSlab) :
    (memory.setSlabs device bytes slabs).slabs other otherBytes =
      if other = device ∧ otherBytes = bytes then slabs else memory.slabs other otherBytes := by
  exact lookup_update Pool.slabRegistry memory.pools other otherBytes rfl

@[simp] theorem freeLimb_setSlabs (memory : Memory) (device other : Device)
    (bytes otherBytes : Nat) (slabs : List GPUSlab) :
    (memory.setSlabs device bytes slabs).freeLimb other otherBytes =
      memory.freeLimb other otherBytes := by
  unfold freeLimb setSlabs
  dsimp only
  rw [Function.update_apply]
  split
  case isTrue same =>
    subst same
    rfl
  case isFalse => rfl

/-- The driver takes the bases of a list back, and the pool is not touched. -/
theorem foldl_cudaFreeAsync (freed : List GPUSlab) (memory : Memory) :
    freed.foldl (fun current slab => current.cudaFreeAsync slab.base) memory =
      { memory with driver := memory.driver.filter (fun region =>
          freed.all (fun slab => region.base ≠ slab.base)) } := by
  induction freed generalizing memory with
  | nil =>
      have whole : memory.driver.filter (fun _ => true) = memory.driver :=
        List.filter_eq_self.mpr fun _ _ => rfl
      rw [List.foldl_nil]
      simp only [List.all_nil, whole]
  | cons slab rest inductionHypothesis =>
      rw [List.foldl_cons, inductionHypothesis, cudaFreeAsync]
      simp only [List.filter_filter, List.all_cons, Bool.and_comm]

end Memory

/-- These live chunks were served by one size class of a device. -/
def pooledChunks (live : List Allocation) (device : Device) (bytes : Nat) : List Address :=
  (live.filter fun allocation => allocation.size.pooled ∧ allocation.device = device ∧
    allocation.size.bytes = bytes).map Allocation.ptr

/-- These live regions were requested from the driver one by one. -/
def directRegions (live : List Allocation) : List Region :=
  (live.filter fun allocation => ¬allocation.size.pooled).map Allocation.region

theorem pooledChunks_perm {first second : List Allocation} (same : first.Perm second)
    (device : Device) (bytes : Nat) :
    (pooledChunks first device bytes).Perm (pooledChunks second device bytes) :=
  (same.filter _).map _

theorem directRegions_perm {first second : List Allocation} (same : first.Perm second) :
    (directRegions first).Perm (directRegions second) :=
  (same.filter _).map _

/-- A pooled allocation adds its chunk to its own class. -/
theorem pooledChunks_cons {allocation : Allocation} (pooled : allocation.size.pooled)
    (live : List Allocation) (device : Device) (bytes : Nat) :
    pooledChunks (allocation :: live) device bytes =
      if device = allocation.device ∧ bytes = allocation.size.bytes then
        allocation.ptr :: pooledChunks live device bytes
      else pooledChunks live device bytes := by
  unfold pooledChunks
  rw [List.filter_cons]
  by_cases same : device = allocation.device ∧ bytes = allocation.size.bytes
  · obtain ⟨rfl, rfl⟩ := same
    simp [pooled]
  · have other : ¬(allocation.device = device ∧ allocation.size.bytes = bytes) :=
      fun reversed => same ⟨reversed.1.symm, reversed.2.symm⟩
    simp [pooled, same, other]

theorem directRegions_cons_pooled {allocation : Allocation} (pooled : allocation.size.pooled)
    (live : List Allocation) : directRegions (allocation :: live) = directRegions live := by
  simp [directRegions, pooled]

theorem pooledChunks_cons_direct {allocation : Allocation}
    (direct : allocation.size.pooled = false) (live : List Allocation) (device : Device)
    (bytes : Nat) :
    pooledChunks (allocation :: live) device bytes = pooledChunks live device bytes := by
  simp [pooledChunks, direct]

theorem directRegions_cons {allocation : Allocation} (direct : allocation.size.pooled = false)
    (live : List Allocation) :
    directRegions (allocation :: live) = allocation.region :: directRegions live := by
  simp [directRegions, direct]

/-- The driver holds every slab and every large region once, and the free chunks and the live
chunks of a size class are the chunks of its slabs. -/
structure Books (memory : Memory) (live : List Allocation) : Prop where
  apart : memory.driver.Pairwise Region.Apart
  filled : ∀ region ∈ memory.driver, 0 < region.bytes
  registered : ∀ device bytes, ∀ slab ∈ memory.slabs device bytes,
    slab ∈ memory.driver ∧ 0 < bytes
  once : ∀ device bytes, (memory.slabs device bytes).Nodup
  owned : ∀ device bytes other otherBytes, ∀ slab ∈ memory.slabs device bytes,
    slab ∈ memory.slabs other otherBytes → device = other ∧ bytes = otherBytes
  direct : ∀ region ∈ directRegions live,
    region ∈ memory.driver ∧ ∀ device bytes, region ∉ memory.slabs device bytes
  directs : (directRegions live).Nodup
  partition : ∀ device bytes, (memory.freeLimb device bytes ++
    pooledChunks live device bytes).Perm ((memory.slabs device bytes).flatMap (Region.chunks bytes))

namespace Books

variable {memory : Memory} {live : List Allocation}

theorem empty : Books {} [] where
  apart := .nil
  filled := fun _ never => by cases never
  registered := fun _ _ _ never => by cases never
  once := fun _ _ => .nil
  owned := fun _ _ _ _ _ never => by cases never
  direct := fun _ never => by cases never
  directs := .nil
  partition := fun _ _ => .nil

/-- Different regions of the driver share no byte. -/
theorem separate (books : Books memory live) {first second : Region}
    (listed : first ∈ memory.driver) (other : second ∈ memory.driver) (different : first ≠ second) :
    first.Apart second :=
  books.apart.forall listed other different

/-- The slabs of one class share no byte. -/
theorem slabs_apart (books : Books memory live) (device : Device) (bytes : Nat) :
    (memory.slabs device bytes).Pairwise Region.Apart :=
  (books.once device bytes).pairwise_of_forall_ne fun first listed second other different =>
    books.separate (books.registered device bytes first listed).1
      (books.registered device bytes second other).1 different

/-- The driver knows a region by its base. -/
theorem eq_of_base (books : Books memory live) {first second : Region}
    (listed : first ∈ memory.driver) (other : second ∈ memory.driver)
    (same : first.base = second.base) : first = second := by
  by_contra different
  have apart := books.separate listed other different
  have positive := books.filled first listed
  have otherPositive := books.filled second other
  unfold Region.Apart at apart
  omega

/-- A free chunk or a live chunk was cut from a slab of its class. -/
theorem chunk_of_mem (books : Books memory live) {device : Device} {bytes : Nat} {ptr : Address}
    (listed : ptr ∈ memory.freeLimb device bytes ++ pooledChunks live device bytes) :
    ∃ slab ∈ memory.slabs device bytes, ptr ∈ slab.chunks bytes :=
  List.mem_flatMap.mp ((books.partition device bytes).mem_iff.mp listed)

theorem nodup (books : Books memory live) (device : Device) (bytes : Nat) :
    (memory.freeLimb device bytes ++ pooledChunks live device bytes).Nodup := by
  rw [(books.partition device bytes).nodup_iff]
  cases slabs : memory.slabs device bytes with
  | nil => exact .nil
  | cons slab rest =>
      rw [← slabs]
      have listed : slab ∈ memory.slabs device bytes := by
        rw [slabs]
        exact List.mem_cons_self
      exact Region.flatMap_chunks_nodup (books.registered device bytes slab listed).2
        (books.slabs_apart device bytes)

end Books
end Fideslib.DeviceMemory
