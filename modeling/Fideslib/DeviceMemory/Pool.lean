/-
This file models the pool of device memory and the driver below it.
-/

import Fideslib.Library.KeyedMap
import Fideslib.Library.Regions
import Fideslib.Library.Run

namespace Fideslib.DeviceMemory

open MemoryRegion

abbrev Address := Nat

/-- The pool serves at most this many devices. -/
abbrev MAXG : Nat := 8

abbrev Device := Fin MAXG

/-- A slab is remembered by its base and its full size. -/
abbrev GPUSlab := Region

/-- This is the size a request is served with, and the slab size in megabytes. -/
structure SizeClass where
  bytes : Nat
  cache : Bool
  MBs : Nat
deriving DecidableEq, Repr

def nextPow2 (bytes : Int) : Nat → Nat → Nat
  | 0, next => next
  | fuel + 1, next => if (next : Int) < bytes then nextPow2 bytes fuel (next * 2) else next

/-- A small request takes the next power of two, and six rounds reach every small one. -/
def sizeClass (bytes : Int) (cache : Bool) : SizeClass :=
  if bytes < 64 * 1024 then
    ⟨nextPow2 bytes 6 1024, true, nextPow2 bytes 6 1024 / 1024⟩
  else ⟨bytes.toNat, cache, 1024⟩

/-- The pool serves powers of two that may be cached. -/
def SizeClass.pooled (size : SizeClass) : Bool :=
  size.cache && (size.bytes &&& (size.bytes - 1)) == 0

def SizeClass.slabBytes (size : SizeClass) : Nat := size.MBs * 1024 * 1024

/-- The driver is asked for a whole slab or for the region of one large request. -/
def SizeClass.driverBytes (size : SizeClass) : Nat :=
  if size.pooled then size.slabBytes else size.bytes

/-- The loop counter is a word of 32 bits. -/
def carve (base slabBytes bytes : Nat) : Nat → Nat → List Address
  | 0, _ => []
  | fuel + 1, i =>
      if i < slabBytes then (base + i) :: carve base slabBytes bytes fuel ((i + bytes) % 2 ^ 32)
      else []

/-- This record holds the free lists and the slabs of one device. -/
structure Pool where
  sizeToMemory : AList fun _ : Nat => List Address := ∅
  slabRegistry : AList fun _ : Nat => List GPUSlab := ∅

/-- The driver holds the regions that were allocated and not freed. -/
structure Memory where
  pools : Device → Pool := fun _ => {}
  driver : List Region := []

namespace Memory

/-- A missing entry of the map reads as an empty list. -/
def freeLimb (memory : Memory) (device : Device) (bytes : Nat) : List Address :=
  ((memory.pools device).sizeToMemory.lookup bytes).getD []

def slabs (memory : Memory) (device : Device) (bytes : Nat) : List GPUSlab :=
  ((memory.pools device).slabRegistry.lookup bytes).getD []

def setFreeLimb (device : Device) (bytes : Nat) (limbs : List Address) (memory : Memory) : Memory :=
  { memory with pools := Function.update memory.pools device { memory.pools device with
      sizeToMemory := (memory.pools device).sizeToMemory.insert bytes limbs } }

def setSlabs (device : Device) (bytes : Nat) (slabs : List GPUSlab) (memory : Memory) : Memory :=
  { memory with pools := Function.update memory.pools device { memory.pools device with
      slabRegistry := (memory.pools device).slabRegistry.insert bytes slabs } }

/-- The driver hands out a region. -/
def cudaMallocAsync (region : Region) (memory : Memory) : Memory :=
  { memory with driver := region :: memory.driver }

/-- The driver takes a region back by its base. -/
def cudaFreeAsync (base : Address) (memory : Memory) : Memory :=
  { memory with driver := memory.driver.filter fun region => region.base ≠ base }

/-- A new slab is registered and cut into free chunks. -/
def refill (device : Device) (size : SizeClass) (base : Address) (memory : Memory) : Memory :=
  ((memory.cudaMallocAsync ⟨base, size.slabBytes⟩).setSlabs device size.bytes
      (memory.slabs device size.bytes ++ [⟨base, size.slabBytes⟩])).setFreeLimb device size.bytes
    (memory.freeLimb device size.bytes ++
      carve base size.slabBytes size.bytes (size.slabBytes / size.bytes + 1) 0)

/-- The driver answers with a base or with none. Without a slab the process ends, and without a
region of its own a large request returns the null pointer. -/
def GPUmalloc (answer : Option Address) (device : Device) (bytes : Int) (cache : Bool)
    (memory : Memory) : Option (Option Address × Memory) :=
  let size := sizeClass bytes cache
  if size.pooled then
    (if (memory.freeLimb device size.bytes).isEmpty then
        answer.map fun base => memory.refill device size base
      else some memory).map fun filled =>
        ((filled.freeLimb device size.bytes).getLast?,
          filled.setFreeLimb device size.bytes (filled.freeLimb device size.bytes).dropLast)
  else
    match answer with
    | none => some (none, memory)
    | some base => some (some base, memory.cudaMallocAsync ⟨base, size.bytes⟩)

def GPUfree (ptr : Address) (device : Device) (bytes : Int) (cache : Bool) (memory : Memory) :
    Memory :=
  let size := sizeClass bytes cache
  if size.pooled then
    memory.setFreeLimb device size.bytes (memory.freeLimb device size.bytes ++ [ptr])
  else memory.cudaFreeAsync ptr

/-- A free chunk counts for the first slab that holds it. -/
def freeCount (slabs : List GPUSlab) (limbs : List Address) (place : Nat) : Nat :=
  (limbs.filter fun ptr => slabs.findIdx? (fun slab => slab.Holds ptr) = some place).length

/-- A slab is idle when as many chunks are free as it was cut into. -/
def idle (slabs : List GPUSlab) (limbs : List Address) (bytes : Nat) (entry : GPUSlab × Nat) :
    Bool :=
  freeCount slabs limbs entry.2 = entry.1.bytes / bytes

/-- This is one round of the loop over the size classes of a device. -/
def trimClass (device : Device) (memory : Memory) (bytes : Nat) : Memory :=
  let slabs := memory.slabs device bytes
  let limbs := memory.freeLimb device bytes
  let freed := (slabs.zipIdx.filter (idle slabs limbs bytes)).map Prod.fst
  if freed.isEmpty then memory
  else
    ((freed.foldl (fun current slab => current.cudaFreeAsync slab.base) memory).setFreeLimb device
        bytes (limbs.filter fun ptr => !freed.any fun slab => slab.Holds ptr)).setSlabs device bytes
      ((slabs.zipIdx.filter fun entry => !idle slabs limbs bytes entry).map Prod.fst)

def GPUtrim (device : Device) (memory : Memory) : Memory :=
  (memory.pools device).slabRegistry.keys.foldl (trimClass device) memory

end Memory

/-- A live allocation is a pointer with the arguments of its request. -/
structure Allocation where
  ptr : Address
  device : Device
  bytes : Int
  cache : Bool
deriving DecidableEq, Repr

namespace Allocation

def size (allocation : Allocation) : SizeClass := sizeClass allocation.bytes allocation.cache

def region (allocation : Allocation) : Region := ⟨allocation.ptr, allocation.size.bytes⟩

end Allocation

/-- The callers keep what they were given until they free it. -/
structure Session where
  memory : Memory := {}
  live : List Allocation := []

inductive Call where
  | malloc (device : Device) (bytes : Int) (cache : Bool) (answer : Option Address)
  | free (allocation : Allocation)
  | trim (device : Device)

/-- The request is a signed word, the driver answers with a region of its own, and a free names a
live allocation with the arguments it was requested with. -/
def Call.Meets : Call → Session → Prop
  | .malloc _ bytes cache answer, session => bytes < 2 ^ 31 ∧ ∀ base, answer = some base →
      ∀ region ∈ session.memory.driver,
        Region.Apart ⟨base, (sizeClass bytes cache).driverBytes⟩ region
  | .free allocation, session => allocation ∈ session.live
  | .trim _, _ => True

/-- A call moves between two sessions when it returns. -/
inductive Call.Step : Call → Session → Session → Prop
  | allocates {device : Device} {bytes : Int} {cache : Bool} {answer : Option Address}
      {session : Session} {ptr : Address} {memory : Memory}
      (returns : session.memory.GPUmalloc answer device bytes cache = some (some ptr, memory)) :
      Call.Step (.malloc device bytes cache answer) session
        ⟨memory, ⟨ptr, device, bytes, cache⟩ :: session.live⟩
  | refuses {device : Device} {bytes : Int} {cache : Bool} {answer : Option Address}
      {session : Session} {memory : Memory}
      (returns : session.memory.GPUmalloc answer device bytes cache = some (none, memory)) :
      Call.Step (.malloc device bytes cache answer) session ⟨memory, session.live⟩
  | frees {allocation : Allocation} {session : Session} :
      Call.Step (.free allocation) session
        ⟨session.memory.GPUfree allocation.ptr allocation.device allocation.bytes allocation.cache,
          session.live.erase allocation⟩
  | trims {device : Device} {session : Session} :
      Call.Step (.trim device) session ⟨session.memory.GPUtrim device, session.live⟩

end Fideslib.DeviceMemory
