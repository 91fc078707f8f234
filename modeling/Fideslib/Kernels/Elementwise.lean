/-
This file translates the elementwise kernels whose last operand may be a compressed plaintext.
-/

import Fideslib.LinearTransform.DotProduct

namespace Fideslib.Kernels

open LinearTransform (ffs modmult)

/-- These are the constants of a device that the kernels read. -/
structure Device where
  primeid_flattened : Nat → Nat
  primes : Nat → Nat
  isU64 : Nat → Bool
  q_inv : Nat → Nat → Nat

namespace Device

variable (device : Device)

/-- A limb has words of one width. -/
def bits (primeid : Nat) : Nat := if device.isU64 primeid then 64 else 32

def modadd (a b primeid : Nat) : Nat :=
  let tmp0 := (a + b) % 2 ^ device.bits primeid
  if device.primes primeid ≤ tmp0 then tmp0 - device.primes primeid else tmp0

def modsub (a b primeid : Nat) : Nat :=
  let tmp0 := (a + (2 ^ device.bits primeid - b)) % 2 ^ device.bits primeid
  if device.primes primeid ≤ tmp0 then (tmp0 + device.primes primeid) % 2 ^ device.bits primeid
  else tmp0

def modmult (a b primeid : Nat) : Nat := LinearTransform.modmult a b (device.primes primeid)

end Device

/-- A launch has one row of blocks for each limb. -/
structure Grid where
  blockDim : Nat
  gridDim : Nat
  limbs : Nat

structure Thread where
  blockIdx : Nat
  limb : Nat
  threadIdx : Nat
deriving DecidableEq, Repr

def Thread.idx (grid : Grid) (thread : Thread) : Nat :=
  grid.blockDim * thread.blockIdx + thread.threadIdx

/-- The host launches blocks of at most 128 threads. -/
def GetBlockDimX (N : Nat) : Nat := min N 128

def GetGridDimX (N : Nat) : Nat := (N + 127) / 128

/-- The threads of a launch cover the ring exactly. -/
theorem launch_covers (logN : Nat) :
    GetBlockDimX (2 ^ logN) * GetGridDimX (2 ^ logN) = 2 ^ logN := by
  unfold GetBlockDimX GetGridDimX
  rcases Nat.le_total logN 7 with small | large
  · have bound : 2 ^ logN ≤ 128 := Nat.pow_le_pow_right two_pos small
    have positive := Nat.two_pow_pos logN
    rw [Nat.min_eq_left bound, show (2 ^ logN + 127) / 128 = 1 by omega, mul_one]
  · obtain ⟨blocks, rfl⟩ := Nat.exists_eq_add_of_le large
    have whole : 2 ^ (7 + blocks) = 128 * 2 ^ blocks := pow_add 2 7 blocks
    have positive := Nat.two_pow_pos blocks
    rw [whole, Nat.min_eq_right (by omega), show (128 * 2 ^ blocks + 127) / 128 = 2 ^ blocks by omega]

/-- A buffer holds the limbs of one operand. -/
abbrev Memory := Nat → Nat → List Nat

/-- A thread fails where it reads or writes outside of a limb. -/
abbrev Program := StateT Memory Option

def read (buffer limb idx : Nat) : Program Nat := fun memory =>
  (memory buffer limb)[idx]?.map fun word => (word, memory)

def write (buffer limb idx word : Nat) : Program Unit := fun memory =>
  if idx < (memory buffer limb).length then
    some ((), fun other row =>
      if other = buffer ∧ row = limb then (memory other row).set idx word else memory other row)
  else none

/-- A compressed operand with this many words has one word for each stride. -/
def logstride (total elem : Nat) : Nat := ffs (total / elem) - 1

section Threads

variable (device : Device) (grid : Grid) (primeid_init elem : Nat) (thread : Thread)

def primeid : Nat := device.primeid_flattened (primeid_init + thread.limb)

/-- A thread combines a coefficient with the word of its stride. -/
def combine (operation : Nat → Nat → Nat → Nat) (a b c : Nat) : Program Unit := do
  let idx := thread.idx grid
  let first ← read b thread.limb idx
  let second ← read c thread.limb
    (idx >>> logstride (grid.blockDim * grid.gridDim) elem)
  write a thread.limb idx (operation first second (primeid device primeid_init thread))

def add_ (a b : Nat) : Program Unit :=
  combine device grid primeid_init elem thread device.modadd a a b

def sub_ (a b : Nat) : Program Unit :=
  combine device grid primeid_init elem thread device.modsub a a b

def addTo_ (a b c : Nat) : Program Unit :=
  combine device grid primeid_init elem thread device.modadd a b c

def subTo_ (a b c : Nat) : Program Unit :=
  combine device grid primeid_init elem thread device.modsub a b c

def mult_ (a b : Nat) : Program Unit :=
  combine device grid primeid_init elem thread device.modmult a a b

def Mult_ (l l1 l2 : Nat) : Program Unit :=
  combine device grid primeid_init elem thread device.modmult l l1 l2

/-- This kernel does not read the size of its last operand. -/
def addMult_ (l l1 l2 : Nat) : Program Unit := do
  let idx := thread.idx grid
  let old ← read l thread.limb idx
  let first ← read l1 thread.limb idx
  let second ← read l2 thread.limb idx
  let primeid := primeid device primeid_init thread
  write l thread.limb idx (device.modadd old (device.modmult first second primeid) primeid)

/-- A pointer of the table that the host has filled. -/
def pointer (data : List Nat) (place : Nat) : Program Nat := fun memory =>
  data[place]?.map fun buffer => (buffer, memory)

/-- The table has the first polynomials, the second polynomials and the plaintexts. -/
def dotTerm (data : List Nat) (ptroffset n i : Nat) : Program (Nat × Nat) := do
  let idx := thread.idx grid
  let dataidx := idx >>> logstride (grid.blockDim * grid.gridDim) elem
  let primeid := primeid device primeid_init thread
  let word ← read (← pointer data (n * 2 + i)) (ptroffset + thread.limb) dataidx
  let first ← read (← pointer data i) (ptroffset + thread.limb) idx
  let second ← read (← pointer data (n + i)) (ptroffset + thread.limb) idx
  return (device.modmult word first primeid, device.modmult word second primeid)

def dotProductPt_ (c0 c1 : Nat) (data : List Nat) (ptroffset n : Nat) : Program Unit := do
  let primeid := primeid device primeid_init thread
  let start ← dotTerm device grid primeid_init elem thread data ptroffset n 0
  let out ← (List.range' 1 (n - 1)).foldlM (fun (out : Nat × Nat) i => do
    let aux ← dotTerm device grid primeid_init elem thread data ptroffset n i
    return (device.modadd out.1 aux.1 primeid, device.modadd out.2 aux.2 primeid)) start
  write c0 (ptroffset + thread.limb) (thread.idx grid) out.1
  write c1 (ptroffset + thread.limb) (thread.idx grid) out.2

/-- A thread of a fused kernel has a pair of coefficients in every tile of its block. -/
def OFFSET_T (M i : Nat) : Nat :=
  grid.blockDim * 2 * M * thread.blockIdx + 2 * grid.blockDim * i + 2 * thread.threadIdx

/-- The shared memory of the blocks lies back to back, so a tile is found by its offset. -/
def multpt_fusion (M A res pt primeid_rescale : Nat) : Program Unit := do
  let primeid := primeid device primeid_init thread
  let q_inv_temp := device.q_inv primeid_rescale primeid
  let shift := logstride (2 * M * grid.blockDim * grid.gridDim) elem
  (List.range M).forM fun i => do
    let j := OFFSET_T grid thread M i
    let first ← read res thread.limb j
    let second ← read res thread.limb (j + 1)
    let in0 := device.modmult first (← read pt thread.limb (j >>> shift)) primeid
    let in1 := device.modmult second (← read pt thread.limb ((j + 1) >>> shift)) primeid
    let old0 ← read A thread.limb j
    write A thread.limb j (device.modmult q_inv_temp (device.modsub in0 old0 primeid) primeid)
    let old1 ← read A thread.limb (j + 1)
    write A thread.limb (j + 1)
      (device.modmult q_inv_temp (device.modsub in1 old1 primeid) primeid)

end Threads

/-- These kernels take the number of words of their last operand. -/
inductive Kernel where
  | add_ (a b : Nat)
  | sub_ (a b : Nat)
  | addTo_ (a b c : Nat)
  | subTo_ (a b c : Nat)
  | mult_ (a b : Nat)
  | Mult_ (l l1 l2 : Nat)
  | addMult_ (l l1 l2 : Nat)
  | dotProductPt_ (c0 c1 : Nat) (c0s c1s pts : List Nat) (ptroffset : Nat)
  | multpt_fusion (M A res pt primeid_rescale : Nat)
deriving DecidableEq, Repr

namespace Kernel

/-- One thread of a kernel. -/
def thread (device : Device) (grid : Grid) (primeid_init elem : Nat) (thread : Thread) :
    Kernel → Program Unit
  | .add_ a b => Kernels.add_ device grid primeid_init elem thread a b
  | .sub_ a b => Kernels.sub_ device grid primeid_init elem thread a b
  | .addTo_ a b c => Kernels.addTo_ device grid primeid_init elem thread a b c
  | .subTo_ a b c => Kernels.subTo_ device grid primeid_init elem thread a b c
  | .mult_ a b => Kernels.mult_ device grid primeid_init elem thread a b
  | .Mult_ l l1 l2 => Kernels.Mult_ device grid primeid_init elem thread l l1 l2
  | .addMult_ l l1 l2 => Kernels.addMult_ device grid primeid_init thread l l1 l2
  | .dotProductPt_ c0 c1 c0s c1s pts ptroffset =>
      Kernels.dotProductPt_ device grid primeid_init elem thread c0 c1 (c0s ++ c1s ++ pts)
        ptroffset c0s.length
  | .multpt_fusion M A res pt primeid_rescale =>
      Kernels.multpt_fusion device grid primeid_init elem thread M A res pt primeid_rescale

/-- The threads of a launch work on this many coefficients. -/
def coefficients (grid : Grid) : Kernel → Nat
  | .multpt_fusion M .. => 2 * M * grid.blockDim * grid.gridDim
  | _ => grid.blockDim * grid.gridDim

/-- These operands keep all their coefficients. -/
def full : Kernel → List Nat
  | .add_ a _ | .sub_ a _ | .mult_ a _ => [a]
  | .addTo_ a b _ | .subTo_ a b _ | .Mult_ a b _ | .addMult_ a b _ => [a, b]
  | .dotProductPt_ c0 c1 c0s c1s _ _ => c0 :: c1 :: (c0s ++ c1s)
  | .multpt_fusion _ A res _ _ => [A, res]

/-- These operands may be compressed. -/
def plaintexts : Kernel → List Nat
  | .add_ _ b | .sub_ _ b | .mult_ _ b => [b]
  | .addTo_ _ _ c | .subTo_ _ _ c | .Mult_ _ _ c | .addMult_ _ _ c => [c]
  | .dotProductPt_ _ _ _ _ pts _ => pts
  | .multpt_fusion _ _ _ pt _ => [pt]

/-- A kernel works on the limbs behind this one. -/
def firstLimb : Kernel → Nat
  | .dotProductPt_ _ _ _ _ _ ptroffset => ptroffset
  | _ => 0

end Kernel

end Fideslib.Kernels
