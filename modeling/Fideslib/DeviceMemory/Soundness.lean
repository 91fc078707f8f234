/-
This file states what every run of the pool promises about its chunks.
-/

import Fideslib.DeviceMemory.Trim

namespace Fideslib.DeviceMemory

open MemoryRegion

/-- Live chunks are separate, each lies in a slab of its class or was requested alone, and the free
and the live chunks of a class are the chunks of its slabs, each once. -/
structure Sound (session : Session) : Prop where
  separate : session.live.Pairwise fun first second => first.region.Apart second.region
  distinct : (session.live.map Allocation.ptr).Nodup
  pooled : ∀ allocation ∈ session.live, allocation.size.pooled →
    ∃ slab ∈ session.memory.slabs allocation.device allocation.size.bytes,
      allocation.region.Within slab
  direct : ∀ allocation ∈ session.live, allocation.size.pooled = false →
    allocation.region ∈ session.memory.driver ∧
      ∀ device bytes, ∀ slab ∈ session.memory.slabs device bytes, allocation.region.Apart slab
  partition : ∀ device bytes, (session.memory.freeLimb device bytes ++
    pooledChunks session.live device bytes).Perm
      ((session.memory.slabs device bytes).flatMap (Region.chunks bytes))
  once : ∀ device bytes, (session.memory.freeLimb device bytes ++
    pooledChunks session.live device bytes).Nodup
  allocated : ∀ device bytes, ∀ slab ∈ session.memory.slabs device bytes,
    slab ∈ session.memory.driver

namespace Books

variable {memory : Memory} {live : List Allocation}

/-- A live chunk of the pool was cut from a slab of its class. -/
theorem live_chunk (books : Books memory live) {allocation : Allocation}
    (held : allocation ∈ live) (pooled : allocation.size.pooled) :
    ∃ slab ∈ memory.slabs allocation.device allocation.size.bytes,
      allocation.ptr ∈ slab.chunks allocation.size.bytes := by
  apply books.chunk_of_mem
  refine List.mem_append_right _ (List.mem_map.mpr ⟨allocation, ?_, rfl⟩)
  exact List.mem_filter.mpr ⟨held, decide_eq_true ⟨pooled, rfl, rfl⟩⟩

theorem live_direct (books : Books memory live) {allocation : Allocation}
    (held : allocation ∈ live) (direct : allocation.size.pooled = false) :
    allocation.region ∈ memory.driver ∧
      ∀ device bytes, allocation.region ∉ memory.slabs device bytes := by
  apply books.direct
  refine List.mem_map.mpr ⟨allocation, List.mem_filter.mpr ⟨held, decide_eq_true ?_⟩, rfl⟩
  exact Bool.eq_false_iff.mp direct

/-- Two chunks of one class at different places of the live list are different. -/
theorem pooled_pairwise (books : Books memory live) (device : Device) (bytes : Nat) :
    live.Pairwise fun first second =>
      first.size.pooled ∧ first.device = device ∧ first.size.bytes = bytes →
      second.size.pooled ∧ second.device = device ∧ second.size.bytes = bytes →
        first.ptr ≠ second.ptr := by
  have chunks := (List.nodup_append.mp (books.nodup device bytes)).2.1
  have filtered := List.pairwise_filter.mp (List.pairwise_map.mp chunks)
  exact filtered.imp fun apart first second =>
    apart (decide_eq_true first) (decide_eq_true second)

theorem direct_pairwise (books : Books memory live) :
    live.Pairwise fun first second => first.size.pooled = false → second.size.pooled = false →
      first.region ≠ second.region := by
  have filtered := List.pairwise_filter.mp (List.pairwise_map.mp books.directs)
  exact filtered.imp fun apart first second =>
    apart (decide_eq_true (Bool.eq_false_iff.mp first))
      (decide_eq_true (Bool.eq_false_iff.mp second))

/-- The chunks of two live allocations share no byte. -/
theorem live_separate (books : Books memory live) :
    live.Pairwise fun first second => first.region.Apart second.region := by
  rw [List.pairwise_iff_getElem]
  intro place other bound otherBound before
  have chunk := List.pairwise_iff_getElem.mp (books.pooled_pairwise live[place].device
    live[place].size.bytes) place other bound otherBound before
  have large := List.pairwise_iff_getElem.mp books.direct_pairwise place other bound otherBound
    before
  have held : live[place] ∈ live := List.getElem_mem bound
  have otherHeld : live[other] ∈ live := List.getElem_mem otherBound
  generalize live[place] = first at *
  generalize live[other] = second at *
  cases pooled : first.size.pooled with
  | false =>
      obtain ⟨known, outside⟩ := books.live_direct held pooled
      cases otherPooled : second.size.pooled with
      | false =>
          exact books.separate known (books.live_direct otherHeld otherPooled).1
            (large pooled otherPooled)
      | true =>
          obtain ⟨slab, stored, cut⟩ := books.live_chunk otherHeld otherPooled
          have different : first.region ≠ slab := by
            intro same
            rw [← same] at stored
            exact outside _ _ stored
          have apart := books.separate known (books.registered _ _ slab stored).1 different
          exact apart.within ⟨le_rfl, le_rfl⟩ (Region.chunk_within cut)
  | true =>
      obtain ⟨slab, stored, cut⟩ := books.live_chunk held pooled
      have inside : first.region.Within slab := Region.chunk_within cut
      have slabKnown := (books.registered _ _ slab stored).1
      cases otherPooled : second.size.pooled with
      | false =>
          obtain ⟨known, outside⟩ := books.live_direct otherHeld otherPooled
          have different : slab ≠ second.region := by
            intro same
            rw [same] at stored
            exact outside _ _ stored
          exact (books.separate slabKnown known different).within inside ⟨le_rfl, le_rfl⟩
      | true =>
          obtain ⟨otherSlab, otherStored, otherCut⟩ := books.live_chunk otherHeld otherPooled
          by_cases same : slab = otherSlab
          · subst same
            obtain ⟨sameDevice, sameBytes⟩ := books.owned _ _ _ _ slab stored otherStored
            have different := chunk ⟨pooled, rfl, rfl⟩
              ⟨otherPooled, sameDevice.symm, sameBytes.symm⟩
            rw [← sameBytes] at otherCut
            have apart := Region.chunks_apart cut otherCut different
            rw [Allocation.region, Allocation.region, ← sameBytes]
            exact apart
          · have apart := books.separate slabKnown (books.registered _ _ otherSlab otherStored).1
              same
            exact apart.within inside (Region.chunk_within otherCut)

/-- The books give what the pool promises. -/
theorem sound {session : Session} (books : Books session.memory session.live) : Sound session where
  separate := books.live_separate
  distinct := by
    refine List.pairwise_map.mpr (books.live_separate.imp ?_)
    intro first second apart samePtr
    have same : @Eq Nat first.ptr second.ptr := samePtr
    have positive := sizeClass_positive first.bytes first.cache
    have otherPositive := sizeClass_positive second.bytes second.cache
    unfold Region.Apart Allocation.region Allocation.size at apart
    dsimp only at apart
    omega
  pooled := by
    intro allocation held pooled
    obtain ⟨slab, stored, cut⟩ := books.live_chunk held pooled
    exact ⟨slab, stored, Region.chunk_within cut⟩
  direct := by
    intro allocation held direct
    obtain ⟨known, outside⟩ := books.live_direct held direct
    refine ⟨known, fun device bytes slab stored => ?_⟩
    refine books.separate known (books.registered device bytes slab stored).1 fun same => ?_
    rw [← same] at stored
    exact outside device bytes stored
  partition := books.partition
  once := books.nodup
  allocated := fun device bytes slab stored => (books.registered device bytes slab stored).1

end Books

/-- Every step that meets the contract of the driver and of the callers keeps the books. -/
theorem Call.Step.books {call : Call} {before after : Session} (moved : call.Step before after)
    (meets : call.Meets before) (books : Books before.memory before.live) :
    Books after.memory after.live := by
  cases moved with
  | allocates returns => exact books.gpuMalloc meets.1 meets.2 returns
  | refuses returns => exact books.gpuMalloc meets.1 meets.2 returns
  | frees => exact books.gpuFree meets
  | trims => exact (books.gpuTrim _).1

/-- In every run of requests, frees and trims the pool is sound, and a trim gives back idle slabs
only and leaves no free chunk in them. -/
theorem slab_allocator_sound {session : Session}
    (run : StateMachine.Run Call.Step Call.Meets {} session) :
    Sound session ∧
      ∀ device, Trims device session.memory (session.memory.GPUtrim device) := by
  have books : Books session.memory session.live := by
    refine run.invariant (fun current => Books current.memory current.live) Books.empty ?_
    intro call before after meets moved held
    exact moved.books meets held
  exact ⟨books.sound, fun device => (books.gpuTrim device).2⟩

/-- This allocation fills a slab of one chunk. -/
def chunkAt (base : Address) : Allocation := ⟨base, 0, 2 ^ 30, true⟩

def handOut (base : Address) (memory : Memory) : Memory :=
  (memory.refill 0 (chunkAt base).size base).setFreeLimb 0 (2 ^ 30) []

/-- Two chunks are requested, and a trim gives back the slab of the one that is freed. -/
theorem slab_allocator_sound_twoSlabs :
    ∃ session : Session, session.live = [chunkAt (2 ^ 31)] ∧
      session.memory.driver = [⟨2 ^ 31, 2 ^ 30⟩] ∧ Sound session ∧
      ∀ device, Trims device session.memory (session.memory.GPUtrim device) := by
  have first : Call.Meets (.malloc 0 (2 ^ 30) true (some 4096)) {} :=
    ⟨by decide, fun _ _ _ never => by cases never⟩
  have one : Call.Step (.malloc 0 (2 ^ 30) true (some 4096)) {} ⟨handOut 4096 {}, [chunkAt 4096]⟩ :=
    .allocates rfl
  have second : Call.Meets (.malloc 0 (2 ^ 30) true (some (2 ^ 31)))
      ⟨handOut 4096 {}, [chunkAt 4096]⟩ := by
    refine ⟨by decide, ?_⟩
    intro base same region member
    obtain rfl := Option.some.inj same
    have held : (handOut 4096 {}).driver = [⟨4096, 2 ^ 30⟩] := rfl
    rw [held] at member
    rw [List.mem_singleton.mp member]
    decide
  have two : Call.Step (.malloc 0 (2 ^ 30) true (some (2 ^ 31)))
      ⟨handOut 4096 {}, [chunkAt 4096]⟩
      ⟨handOut (2 ^ 31) (handOut 4096 {}), [chunkAt (2 ^ 31), chunkAt 4096]⟩ :=
    .allocates rfl
  have third : Call.Meets (.free (chunkAt 4096))
      ⟨handOut (2 ^ 31) (handOut 4096 {}), [chunkAt (2 ^ 31), chunkAt 4096]⟩ := by
    simp [Call.Meets]
  have run := ((StateMachine.Run.start.next first one).next second two).next third Call.Step.frees
  have fourth : ∀ session, Call.Meets (.trim 0) session := fun _ => trivial
  exact ⟨_, rfl, rfl, slab_allocator_sound (run.next (fourth _) Call.Step.trims)⟩

end Fideslib.DeviceMemory
