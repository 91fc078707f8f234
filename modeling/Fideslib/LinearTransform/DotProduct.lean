/-
This file models the batched products of rotated ciphertexts and diagonals.
-/

import Mathlib.Logic.Function.Basic
import Mathlib.NumberTheory.Padics.PadicVal.Basic
import Mathlib.Tactic

namespace Fideslib.LinearTransform

/-- This is one polynomial of a ciphertext on one device. -/
structure CiphertextPart where
  limbs : Nat
  limb : Nat → Nat → Nat
  SPECIALlimb : Nat → Nat → Nat

/-- A limb of a plaintext holds two words for each slot. The device keeps its own special limbs
only. -/
structure PlaintextPart where
  limbs : Nat
  slots : Nat
  limb : Nat → List Nat
  SPECIALlimb : Nat → List Nat

/-- This is what a launch reads of the context and of its device. -/
structure Layout where
  logN : Nat
  limbsize : Nat
  special_start : Nat
  slimbsize : Nat
  prime : Nat → Nat
  specialPrime : Nat → Nat
  num_parallel_parts : Nat

namespace Layout

def N (layout : Layout) : Nat := 2 ^ layout.logN

/-- The second launch works on the special limbs of the device. -/
def modulus (layout : Layout) (special : Bool) (limb : Nat) : Nat :=
  if special then layout.specialPrime limb else layout.prime limb

end Layout

inductive Operand where
  | output (position : Nat)
  | input (position : Nat)
  | plaintext (position : Nat)
deriving DecidableEq, Repr

/-- A pointer leads to the regular or to the special limbs of an operand. -/
structure Pointer where
  operand : Operand
  special : Bool
deriving DecidableEq, Repr

/-- A write stores one coefficient of one limb of an output. -/
structure Write where
  special : Bool
  position : Nat
  limb : Nat
  idx : Nat
  value : Nat
deriving DecidableEq, Repr

/-- These are the operands of one call on one device. -/
structure Batch where
  layout : Layout
  out : List CiphertextPart
  input : List CiphertextPart
  pt : List (Option PlaintextPart)
  bStep : Nat
  gStep : Nat
  stride : Nat
  ext : Bool
  slots : Nat

def modmult (a b prime : Nat) : Nat := a * b % prime

def modadd (a b prime : Nat) : Nat := if a + b < prime then a + b else a + b - prime

/-- This is the position of the lowest bit that is set, counted from one. -/
def ffs (value : Nat) : Nat := if value = 0 then 0 else padicValNat 2 value + 1

namespace Batch

variable (batch : Batch)

def outAt (position : Nat) : Option (Option Operand) :=
  if position < batch.out.length then some (some (.output position)) else none

def inAt (position : Nat) : Option (Option Operand) :=
  if position < batch.input.length then some (some (.input position)) else none

/-- A null plaintext gives a null pointer. -/
def ptAt (position : Nat) : Option (Option Operand) :=
  batch.pt[position]?.map fun pt => pt.map fun _ => .plaintext position

def num_LT : Nat := batch.out.length / (2 * batch.gStep)

/-- Both halves of the pointer table have this length. -/
def half : Nat := batch.out.length + batch.input.length + batch.pt.length

def size : Nat := batch.half * if batch.ext then 2 else 1

def offset_out (c : Nat) : Nat := if c = 0 then 0 else batch.out.length / 2

def offset_in (c : Nat) : Nat :=
  if c = 0 then batch.out.length else batch.out.length + batch.input.length / 2

def offset_pt : Nat := batch.out.length + batch.input.length

/-- The table entries of the first or of the second polynomials of the outputs. -/
def outEntries (i c : Nat) : List (Nat × Option (Option Operand)) :=
  (List.range batch.stride).flatMap fun j => (List.range batch.gStep).map fun k =>
    let place := i * batch.stride * batch.gStep + j * batch.gStep + k
    (batch.offset_out c + place, batch.outAt (2 * place + c))

def inEntries (i c : Nat) : List (Nat × Option (Option Operand)) :=
  (List.range batch.stride).flatMap fun j => (List.range batch.bStep).map fun k =>
    let place := i * batch.stride * batch.bStep + j * batch.bStep + k
    (batch.offset_in c + place, batch.inAt (2 * place + c))

def ptEntries (i : Nat) : List (Nat × Option (Option Operand)) :=
  (List.range batch.gStep).flatMap fun j => (List.range batch.bStep).map fun k =>
    let place := i * batch.gStep * batch.bStep + j * batch.bStep + k
    (batch.offset_pt + place, batch.ptAt place)

def entries (i : Nat) : List (Nat × Option (Option Operand)) :=
  batch.outEntries i 0 ++ batch.outEntries i 1 ++ batch.inEntries i 0 ++ batch.inEntries i 1 ++
    batch.ptEntries i

/-- The special limbs fill the second half of the table. -/
def allEntries : List (Bool × Nat × Option (Option Operand)) :=
  (List.range batch.num_LT).flatMap fun i =>
    (batch.entries i).map (fun entry => (false, entry)) ++
      if batch.ext then (batch.entries i).map (fun entry => (true, entry)) else []

def halfOffset (special : Bool) : Nat := if special then batch.size / 2 else 0

/-- An assignment fails where it reads or writes outside of a vector. -/
def assign (table : Nat → Option Pointer) (entry : Bool × Nat × Option (Option Operand)) :
    Option (Nat → Option Pointer) := do
  let operand ← entry.2.2
  let slot := batch.halfOffset entry.1 + entry.2.1
  if slot < batch.size then
    return Function.update table slot (operand.map fun operand => ⟨operand, entry.1⟩)
  else none

def data_ptrs : Option (Nat → Option Pointer) :=
  batch.allEntries.foldlM batch.assign fun _ => none

/-- The kernel reads a table entry behind the base pointers of its launch. -/
def readTable (table : Nat → Option Pointer) (special : Bool) (slot : Nat) :
    Option (Option Pointer) :=
  if batch.halfOffset special + slot < batch.size then
    some (table (batch.halfOffset special + slot))
  else none

def logstride : Nat :=
  ffs (4 * 16 * (batch.layout.N / 64) / (2 * batch.slots)) - 1

def loadInput (pointer : Option Pointer) (limb idx : Nat) : Option Nat :=
  match pointer with
  | some ⟨.input position, special⟩ =>
      batch.input[position]?.map fun part =>
        if special then part.SPECIALlimb (batch.layout.special_start + limb) idx
        else part.limb limb idx
  | _ => none

def words (part : PlaintextPart) (special : Bool) (limb : Nat) : List Nat :=
  if special then part.SPECIALlimb limb else part.limb limb

/-- A null pointer stands for a zero product. -/
def multPt (pointer : Option Pointer) (input limb idx prime : Nat) : Option Nat :=
  match pointer with
  | none => some 0
  | some ⟨.plaintext position, special⟩ => do
      let part ← batch.pt[position]?
      let word ← (words (← part) special limb)[idx >>> batch.logstride]?
      return modmult input word prime
  | some _ => none

/-- The coordinates of a thread inside the grid and inside its block. -/
structure Thread where
  blockz : Nat
  blocky : Nat
  blockx : Nat
  threadz : Nat
  thready : Nat
  threadx : Nat
deriving DecidableEq, Repr

def Thread.idx (thread : Thread) : Nat :=
  thread.threadx + thread.threadz * 16 + thread.blockx * 64

/-- A thread keeps one sum for each giant step and stores it in the last baby step. -/
def giantStep (table : Nat → Option Pointer) (special : Bool) (thread : Thread)
    (k i input : Nat) (state : (Nat → Nat) × List Write) (j : Nat) :
    Option ((Nat → Nat) × List Write) := do
  let prime := batch.layout.modulus special thread.blocky
  let pt_partition ← batch.readTable table special
    (batch.offset_pt + (k * batch.bStep * batch.gStep + j * batch.bStep + i))
  let mult ← batch.multPt pt_partition input thread.blocky thread.idx prime
  let sum := if i = 0 then mult else modadd (state.1 j) mult prime
  let acc := Function.update state.1 j sum
  if i = batch.bStep - 1 then
    match ← batch.readTable table special
        (batch.offset_out thread.thready + (k * batch.gStep + j)) with
    | some ⟨.output position, special⟩ =>
        return (acc, state.2 ++ [⟨special, position, thread.blocky, thread.idx, sum⟩])
    | _ => none
  else return (acc, state.2)

def babyStep (table : Nat → Option Pointer) (special : Bool) (thread : Thread) (k : Nat)
    (state : (Nat → Nat) × List Write) (i : Nat) : Option ((Nat → Nat) × List Write) := do
  let pointer ← batch.readTable table special
    (batch.offset_in thread.thready + (k * batch.bStep + i))
  let input ← batch.loadInput pointer thread.blocky thread.idx
  (List.range batch.gStep).foldlM (batch.giantStep table special thread k i input) state

/-- The transforms of a thread lie one grid apart. -/
def transforms (blockz : Nat) : List Nat :=
  (List.range ((batch.num_LT + batch.layout.num_parallel_parts - 1 - blockz) /
    batch.layout.num_parallel_parts)).map fun round =>
      blockz + round * batch.layout.num_parallel_parts

def runThread (table : Nat → Option Pointer) (special : Bool) (thread : Thread) :
    Option (List Write) := do
  let writes ← (batch.transforms thread.blockz).mapM fun k =>
    (List.range batch.bStep).foldlM (batch.babyStep table special thread k) (fun _ => 0, [])
  return writes.flatMap Prod.snd

def threads (limbs : Nat) : List Thread :=
  (List.range batch.layout.num_parallel_parts).flatMap fun blockz =>
    (List.range limbs).flatMap fun blocky =>
      (List.range (batch.layout.N / 64)).flatMap fun blockx =>
        (List.range 4).flatMap fun threadz =>
          (List.range 2).flatMap fun thready =>
            (List.range 16).map fun threadx =>
              ⟨blockz, blocky, blockx, threadz, thready, threadx⟩

def dotProductLtBatchedPt2 (table : Nat → Option Pointer) (special : Bool) :
    Option (List Write) := do
  let limbs := if special then batch.layout.slimbsize else batch.layout.limbsize
  let writes ← (batch.threads limbs).mapM (batch.runThread table special)
  return writes.flatten

/-- Every operand but a null plaintext holds the limbs of the launch. -/
def checkLimbs : Bool :=
  batch.out.all (fun part => batch.layout.limbsize ≤ part.limbs) &&
    batch.input.all (fun part => batch.layout.limbsize ≤ part.limbs) &&
    batch.pt.all fun pt => pt.all fun part => batch.layout.limbsize ≤ part.limbs

/-- The call follows the pointer of the first plaintext to its stream. -/
def headStream (pt : List (Option PlaintextPart)) : Option Unit :=
  match pt[0]? with
  | some (some _) => some ()
  | _ => none

/-- This is the call on the partitions of one device. -/
def partitionCall : Option (List Write) := do
  if batch.checkLimbs then
    let table ← batch.data_ptrs
    headStream batch.pt
    let regular ← batch.dotProductLtBatchedPt2 table false
    let special ← if batch.ext then batch.dotProductLtBatchedPt2 table true else some []
    return regular ++ special
  else none

/-- These outputs go to the block of giant steps that starts at this one. -/
def blockOutputs (g_in g_internal : Nat) : List Nat :=
  (List.range batch.num_LT).flatMap fun i => (List.range batch.stride).flatMap fun j =>
    (List.range g_internal).flatMap fun k =>
      let place := i * batch.stride * batch.gStep + j * batch.gStep + (g_in + k)
      [2 * place, 2 * place + 1]

def blockPlaintexts (g_in g_internal : Nat) : List Nat :=
  (List.range batch.num_LT).flatMap fun i => (List.range g_internal).flatMap fun j =>
    (List.range batch.bStep).map fun k =>
      i * batch.gStep * batch.bStep + (g_in + j) * batch.bStep + k

/-- A block of at most eight giant steps is a call of its own. -/
def blockCall (g_in : Nat) : Option (List Write) := do
  let g_internal := min 8 (batch.gStep - g_in)
  let positions := batch.blockOutputs g_in g_internal
  let out ← positions.mapM fun position => batch.out[position]?
  let pt ← (batch.blockPlaintexts g_in g_internal).mapM fun position => batch.pt[position]?
  headStream pt
  headStream batch.pt
  let writes ← partitionCall { batch with out, pt, gStep := g_internal }
  return writes.map fun write => { write with position := positions.getD write.position 0 }

def LTdotProductPtBatch : Option (List Write) :=
  if batch.gStep ≤ 8 then batch.partitionCall
  else do
    let writes ← (List.range ((batch.gStep + 7) / 8)).mapM fun block => batch.blockCall (8 * block)
    return writes.flatten

end Batch
end Fideslib.LinearTransform
