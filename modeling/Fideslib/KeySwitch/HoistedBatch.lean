/-
This file models the hoisted rotations of a batch of ciphertexts.
-/

import Fideslib.KeySwitch.HoistedRotation

namespace Fideslib.KeySwitch

open Fideslib.Modular
open Constants (SetupConstants)

/-- A block has some columns, two components and the ciphertexts of the batch. -/
structure BlockThread where
  x : Nat
  y : Nat
  z : Nat
deriving DecidableEq, Repr

/-- The numbers that a loop with this stride visits. -/
def strided (start stop step : Nat) : List Nat :=
  (List.range stop).filter fun i => start ≤ i ∧ (i - start) % step = 0

/-- These are the arguments of a batched launch. -/
structure Batch where
  c1 : Nat → Nat → Limb
  din1 : Nat → Nat → Limb
  c0 : Nat → Nat → Limb
  sc0 : Nat → Nat → Limb
  n : Nat
  indexes : Nat → Nat
  table : Nat → Option (Nat → Limb)
  stale : Nat → Limb
  num_d : Nat
  num_special : Nat
  c0_modup : Bool
  blockDimX : Nat
  blockDimZ : Nat

namespace Batch

variable {raw : RawParams} (digits : Digits raw) (cc : Constants) (batch : Batch)

def stride_in : Nat := batch.blockDimX * batch.blockDimZ

def stride_ksk : Nat := batch.blockDimX * 2

def in1 (thread : BlockThread) (i : Nat) : Nat :=
  thread.x + batch.blockDimX * thread.z + i * batch.stride_in

def ksk (thread : BlockThread) (i : Nat) : Nat :=
  batch.num_d * batch.stride_in + (thread.y * batch.blockDimX + thread.x) + i * batch.stride_ksk

/-- A pointer that is not null leads to the limbs of one half of a key. -/
def pointer (j y : Nat) : Option (Nat → Limb) := batch.table ((2 * j + y) * (batch.num_d + 1))

section Block

variable (blockIdx : Nat × Nat)

def primeid : Nat := rowPrime digits blockIdx.2 batch.num_special

def pos_dec : Nat := blockIdx.2 - batch.num_special

def idx (thread : BlockThread) : Nat := thread.x + blockIdx.1 * batch.blockDimX

/-- The components share the words of a ciphertext. -/
def loadIn (thread : BlockThread) : List (Nat × Nat) :=
  let primeid := batch.primeid digits blockIdx
  (strided thread.y batch.num_d 2).map fun i =>
    let decomp := digits.primeid_digit primeid = some i
    let limbs := if decomp then batch.c1 thread.z else batch.din1 (batch.num_d * thread.z + i)
    (batch.in1 thread i, limbs (if decomp then batch.pos_dec blockIdx
      else digits.pos_in_digit i primeid) (batch.idx blockIdx thread))

/-- The ciphertexts share the words of a key. -/
def loadKsk (j : Nat) (thread : BlockThread) : List (Nat × Nat) :=
  let primeid := batch.primeid digits blockIdx
  if (batch.pointer j thread.y).isSome then
    (strided thread.z batch.num_d batch.blockDimZ).map fun i =>
      let decomp := digits.primeid_digit primeid = some i
      let ksk_from := (batch.table ((2 * j + thread.y) * (batch.num_d + 1) +
        if decomp then batch.num_d else i)).getD batch.stale
      (batch.ksk thread i, ksk_from (if decomp then batch.pos_dec blockIdx
        else digits.pos_in_digit i primeid) (batch.idx blockIdx thread))
  else []

/-- The words of the second component are those of the ciphertext, and others are scaled. -/
def in2 (shared : Nat → Nat) (thread : BlockThread) : Nat :=
  let primeid := batch.primeid digits blockIdx
  if batch.c0_modup ∧ thread.y = 1 ∨ primeid < cc.L then
    let in2 :=
      if thread.y = 1 then
        if primeid < cc.L then batch.c0 thread.z (batch.pos_dec blockIdx) (batch.idx blockIdx thread)
        else batch.sc0 thread.z (primeid - cc.L) (batch.idx blockIdx thread)
      else shared (batch.in1 thread ((digits.primeid_digit primeid).getD 0))
    if ¬batch.c0_modup ∨ thread.y = 0 then
      modmult .shoup in2 (cc.P primeid) (cc.primes primeid) (cc.P_shoup primeid)
    else in2
  else 0

/-- A rotation without a key leaves the words in their slots. -/
def store (j : Nat) (shared : Nat → Nat) (in2 : Nat) (thread : BlockThread) : Cell × Nat :=
  let primeid := batch.primeid digits blockIdx
  let p := cc.primes primeid
  let idx := batch.idx blockIdx thread
  let cell := outputCell cc (if thread.y = 0 then .c1 else .c0) (thread.z * batch.n + j) primeid
    (batch.pos_dec blockIdx)
  if (batch.pointer j thread.y).isSome then
    let start := if (batch.c0_modup ∨ primeid < cc.L) ∧ thread.y = 1 then some in2 else none
    let aux := accumulate p start (fun i =>
      modmult .barrett (shared (batch.in1 thread i)) (shared (batch.ksk thread i)) p 0) batch.num_d
    (cell (automorph_slot cc.logN (batch.indexes j) idx), aux)
  else (cell idx, in2)

/-- The barriers separate the loads of a block from the products. -/
def hoistedRotateDotKSKBatched___ (order : List BlockThread) (uninitialised : Nat → Nat) :
    List (Cell × Nat) :=
  let loaded := Scatter.launch (batch.loadIn digits blockIdx) order uninitialised
  let in2 := batch.in2 digits cc blockIdx loaded
  ((List.range batch.n).foldl (fun state j =>
    let shared := Scatter.launch (batch.loadKsk digits blockIdx j) order state.1
    (shared, state.2 ++ order.map fun thread =>
      batch.store digits cc blockIdx j shared (in2 thread) thread)) (loaded, [])).2

end Block

end Batch

/-- A wide batch gets narrow blocks. -/
def shrinkBlock (stride blockdimx : Nat) : Nat :=
  if 256 < stride * 2 * blockdimx ∧ 2 < blockdimx then shrinkBlock stride (blockdimx / 2)
  else blockdimx
termination_by blockdimx
decreasing_by omega

/-- The operand of a batch brings its digits with it. -/
structure BatchInput where
  c0 : RNSPoly
  source : DigitPoly

/-- A batched run meets orders of its threads and old contents of its memory. -/
structure BatchSurroundings where
  blocks : List (Nat × Nat)
  threads : Nat × Nat → List BlockThread
  uninitialised : Nat × Nat → Nat → Nat
  stale : Nat → Option (Nat → Limb)
  staleDigits : Nat → Nat → Limb
  null : Nat → Limb

section Host

variable {raw : RawParams} (digits : Digits raw) (cc : Constants)

/-- The pointers of a missing key are null. -/
def batchPointers (n num_d : Nat) (keys : Nat → Option KeySwitchingKey) :
    List (Nat × Option (Nat → Limb)) :=
  (List.range n).flatMap fun j =>
    ((List.range num_d).flatMap fun k =>
      [((num_d + 1) * 2 * j + k, (keys j).map fun ksk => ksk.a.DIGITlimb k),
        ((num_d + 1) * (2 * j + 1) + k, (keys j).map fun ksk => ksk.b.DIGITlimb k)]) ++
    [((num_d + 1) * 2 * j + num_d, (keys j).map fun ksk => ksk.a.limb),
      ((num_d + 1) * (2 * j + 1) + num_d, (keys j).map fun ksk => ksk.b.limb)]

def digitPointers (stride num_d : Nat) (input : Nat → BatchInput) : List (Nat × (Nat → Limb)) :=
  (List.range stride).flatMap fun j => (List.range num_d).map fun k =>
    (num_d * j + k, (input j).source.DIGITlimb k)

/-- The host fills the arguments of the launch. -/
def batchArguments (around : BatchSurroundings) (stride n level slimbsize : Nat)
    (input : Nat → BatchInput) (keys : Nat → Option KeySwitchingKey) (indexes : Nat → Nat)
    (c0_modup : Bool) : Batch :=
  let num_d := digits.num_d (level + 1)
  { c1 := fun z => (input z).source.limb
    din1 := Scatter.commit (digitPointers stride num_d input) around.staleDigits
    c0 := fun z => (input z).c0.limb
    sc0 := fun z => (input z).c0.special
    n
    indexes := fun j => automorph_index_precomp (indexes j) cc.N
    table := Scatter.commit (batchPointers n num_d keys) around.stale
    stale := around.null
    num_d
    num_special := slimbsize
    c0_modup
    blockDimX := shrinkBlock stride 64
    blockDimZ := stride }

/-- The host launches one grid for all ciphertexts and all rotations. -/
def fusedHoistedRotateBatch (around : BatchSurroundings) (stride n level : Nat)
    (input : Nat → BatchInput) (keys : Nat → Option KeySwitchingKey) (indexes : Nat → Nat)
    (c0_modup : Bool) (results : Nat → Component → RNSPoly) : Nat → Component → RNSPoly :=
  let batch := batchArguments digits cc around stride n level (results 0 .c0).specialLimbs input keys
    indexes c0_modup
  let memory := Scatter.launch (fun blockIdx => batch.hoistedRotateDotKSKBatched___ digits cc blockIdx
    (around.threads blockIdx) (around.uninitialised blockIdx)) around.blocks (store results)
  fun i component => { (results i component).load memory component i with modUp := true }

end Host

end Fideslib.KeySwitch
