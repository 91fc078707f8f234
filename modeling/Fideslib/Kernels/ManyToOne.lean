/-
This file translates the batched operations that combine several targets with one operand.
-/

import Mathlib
import Fideslib.KeySwitch.Constants
import Fideslib.Library.PartialLists
import Fideslib.Library.Scatter
import Fideslib.Modular.NarrowWords

namespace Fideslib.ManyToOne

open Fideslib.Modular
open KeySwitch (Constants)

/-- The scalars of an operand have this many words in the table. -/
def MAXP : Nat := 64

/-- An entry of the table is a null pointer, leads to the limbs of an operand or is a word of a
scalar. -/
inductive Entry
  | null
  | target (position : Nat) (special : Bool)
  | source (position : Nat) (special : Bool)
  | scalar (position prime : Nat)
  | shoup (position prime : Nat)
deriving DecidableEq, Repr

/-- A kernel for narrow limbs takes one half of a word of the table. -/
inductive Part
  | whole
  | low
  | high
deriving DecidableEq, Repr

structure Load where
  entry : Entry
  part : Part
deriving DecidableEq, Repr

/-- The kernels that load one operand and reuse it for several targets. -/
inductive Kernel
  | add_reuse_b___
  | sub_reuse_b___
  | mult_reuse_b___
  | add_scalar_reuse_b___
  | mult_scalar_reuse_b___
  | add_reuse_scale_p_b___
  | sub_reuse_scale_p_b___
  | add_scale_p_reuse_b___
  | sub_scale_p_reuse_b___
  | copy_reuse_b___
  | copy_reuse_negative_b___
deriving DecidableEq, Repr

/-- These kernels find their operand in the table itself. -/
def Kernel.scalar : Kernel → Bool
  | .add_scalar_reuse_b___ | .mult_scalar_reuse_b___ => true
  | _ => false

/-- This is the word that a kernel makes of a target and of the words it has loaded. -/
def Kernel.word (cc : Constants) (isU64 : Bool) (primeid : Nat) (kernel : Kernel) (load shoup old : Nat) :
    Nat :=
  let p := cc.primes primeid
  if isU64 then
    let scale a := modmult .shoup a (cc.P primeid) p (cc.P_shoup primeid)
    match kernel with
    | .add_reuse_b___ => modadd old load p
    | .sub_reuse_b___ => modsub old load p
    | .mult_reuse_b___ => modmult .barrett old load p 0
    | .add_scalar_reuse_b___ => modadd old load p
    | .mult_scalar_reuse_b___ => modmult .shoup old load p shoup
    | .add_reuse_scale_p_b___ => modadd old (scale load) p
    | .sub_reuse_scale_p_b___ => modsub old (scale load) p
    | .add_scale_p_reuse_b___ => modadd (scale old) load p
    | .sub_scale_p_reuse_b___ => modsub (scale old) load p
    | .copy_reuse_b___ => load
    | .copy_reuse_negative_b___ => if load = 0 then 0 else p - load
  else
    let scale a := modmult_32 .shoup a (cc.P primeid % 2 ^ 32) p (cc.P_shoup primeid)
    match kernel with
    | .add_reuse_b___ => modadd_32 old load p
    | .sub_reuse_b___ => modsub_32 old load p
    | .mult_reuse_b___ => modmult_32 .barrett old load p 0
    | .add_scalar_reuse_b___ => modadd_32 old load p
    | .mult_scalar_reuse_b___ => modmult_32 .shoup old load p shoup
    | .add_reuse_scale_p_b___ => modadd_32 old (scale load) p
    | .sub_reuse_scale_p_b___ => modsub_32 old (scale load) p
    -- The narrow branch of the next two kernels also scales the loaded word.
    | .add_scale_p_reuse_b___ => modadd_32 (scale old) (scale load) p
    | .sub_scale_p_reuse_b___ => modsub_32 (scale old) (scale load) p
    | .copy_reuse_b___ => load
    | .copy_reuse_negative_b___ => if load = 0 then 0 else p - load

/-- The table of a call is read behind a base pointer, and a read outside of it fails. -/
abbrev Table := Nat → Option Entry

/-- The calls of one device share its context and the shape of its partitions. -/
structure Call where
  cc : Constants
  primeid : Bool → Nat → Nat
  isU64 : Nat → Bool
  limbsize : Nat
  SPECIALlimb : Nat
  /-- The number of targets, of which every operand has one stride. -/
  parta : Nat
  stride : Nat
  /-- The threads that the device can keep busy, scaled by the usage of the call. -/
  threads : Nat

namespace Call

variable (call : Call)

/-- The target of the device is cut into this many parts. -/
def num_parallel_parts : Nat :=
  let x := call.cc.N / 128
  let y := call.limbsize
  max 1 (min ((call.threads + 128 * x * y + (2 ^ 32 - 1)) % 2 ^ 32 / (128 * x * max 1 y)) call.parta)

section Layout

variable (partb : Nat)

def split : Nat :=
  if partb < call.num_parallel_parts then (call.num_parallel_parts + partb - 1) / partb else 1

def its : Nat :=
  if partb < call.num_parallel_parts then call.stride / call.split partb else call.stride

def gridz : Nat :=
  if partb < call.num_parallel_parts then call.split partb * partb else call.num_parallel_parts

/-- The targets of one operand start a new region of the table. -/
def targetWrites (base : Nat) (special : Bool) (i : Nat) : List (Nat × Entry) :=
  (List.range call.stride).map fun j =>
    (base + (call.its partb * call.split partb * i + j), .target (call.stride * i + j) special)

def sourceWrites (base : Nat) (special : Bool) (i : Nat) : List (Nat × Entry) :=
  (List.range (call.split partb)).map fun j =>
    (base + (i * call.split partb + j), .source i special)

/-- The words of a scalar are copied into the table. -/
def wordWrites (base : Nat) (entry : Nat → Nat → Entry) (words i : Nat) : List (Nat × Entry) :=
  (List.range (call.split partb)).flatMap fun j =>
    (List.range words).map fun prime =>
      (base + ((i * call.split partb + j) * MAXP + prime), entry i prime)

/-- The size of the targets in the table. -/
def whole : Nat := call.its partb * call.split partb * partb

end Layout

/-- The table starts with null pointers and is filled by one operand after the other. -/
def data_ptrs (size : Nat) (writes : List (Nat × Entry)) : Table :=
  Scatter.commit (writes.map fun write => (write.1, some write.2)) fun place =>
    if place < size then some .null else none

end Call

/-- A launch finds its targets and its operands behind these offsets of the table. -/
structure Launch where
  kernel : Kernel
  special : Bool
  a : Nat
  b : Nat
  b_shoup : Nat
  limbs : Nat
deriving DecidableEq, Repr

/-- A call fills one table for all of its launches. -/
structure Work where
  table : Table
  launches : List Launch

namespace Call

variable (call : Call)

/-- The number of special limbs is that of the second target. -/
def slimbsize (extb : Bool) : Option Nat :=
  if extb then (if 1 < call.parta then some call.SPECIALlimb else none) else some 0

/-- A launch without limbs is left out. -/
def launched (launches : List Launch) : List Launch := launches.filter fun launch => 0 < launch.limbs

def addBatchManyToOne (partb : Nat) (sub exta extb : Bool) : Option Work := do
  let slimbsize ← call.slimbsize extb
  let offset1 := call.whole partb
  let offset2 := offset1 + call.split partb * partb
  let offset3 := offset2 + call.whole partb
  let size := offset2 + if extb then call.whole partb + call.split partb * partb else 0
  let writes := (List.range partb).flatMap fun i =>
    call.targetWrites partb 0 false i ++ call.sourceWrites partb offset1 false i ++
      if extb then call.targetWrites partb offset2 true i ++ call.sourceWrites partb offset3 true i
      else []
  let regular kernel : Launch := ⟨kernel, false, 0, offset1, 0, call.limbsize⟩
  let extended kernel : Launch := ⟨kernel, true, offset2, offset3, 0, slimbsize⟩
  let launches :=
    if !sub then
      match exta, extb with
      | false, false => [regular .add_reuse_b___]
      | true, true => [regular .add_reuse_b___, extended .add_reuse_b___]
      | true, false => [regular .add_reuse_scale_p_b___]
      | false, true => [regular .add_scale_p_reuse_b___, extended .copy_reuse_b___]
    else
      match exta, extb with
      | false, false => [regular .sub_reuse_b___]
      | true, true => [regular .sub_reuse_b___, extended .sub_reuse_b___]
      | true, false => [regular .sub_reuse_scale_p_b___]
      | false, true => [regular .sub_scale_p_reuse_b___, extended .copy_reuse_negative_b___]
  return ⟨data_ptrs size writes, launched launches⟩

def multPtBatchManyToOne (partb : Nat) : Work :=
  let offset := call.whole partb
  let size := offset + call.split partb * partb
  let writes := (List.range partb).flatMap fun i =>
    call.targetWrites partb 0 false i ++ call.sourceWrites partb offset false i
  ⟨data_ptrs size writes, launched [⟨.mult_reuse_b___, false, 0, offset, 0, call.limbsize⟩]⟩

def addScalarBatchManyToOne (vector : List (List Nat)) : Work :=
  let partb := vector.length
  let offset := call.whole partb
  let size := offset + call.split partb * partb * MAXP
  let writes := (List.range partb).flatMap fun i =>
    call.targetWrites partb 0 false i ++
      call.wordWrites partb offset .scalar (vector.getD i []).length i
  ⟨data_ptrs size writes, launched [⟨.add_scalar_reuse_b___, false, 0, offset, 0, call.limbsize⟩]⟩

def multScalarBatchManyToOne (vector vector_shoup : List (List Nat)) : Work :=
  let partb := vector.length
  let offset := call.whole partb
  let shoup := offset + call.split partb * partb * MAXP
  let size := offset + call.split partb * partb * MAXP * 2
  let writes := (List.range partb).flatMap fun i =>
    call.targetWrites partb 0 false i ++
      call.wordWrites partb offset .scalar (vector.getD i []).length i ++
      call.wordWrites partb shoup .shoup (vector_shoup.getD i []).length i
  ⟨data_ptrs size writes,
    launched [⟨.mult_scalar_reuse_b___, false, 0, offset, shoup, call.limbsize⟩]⟩

end Call

/-- A thread has one coefficient of one limb and the parts of its block. -/
structure Thread where
  z : Nat
  limb : Nat
  idx : Nat
deriving DecidableEq, Repr

/-- A pass of a thread loads one operand and updates one coefficient of several targets. -/
structure Visit where
  kernel : Kernel
  primeid : Nat
  limb : Nat
  idx : Nat
  loads : List Load
  targets : List Entry
deriving DecidableEq, Repr

/-- The targets of a pass end at a null pointer. -/
def targetsFrom (table : Table) (place : Nat) : Nat → Option (List Entry)
  | 0 => some []
  | its + 1 => do
      match ← table place with
      | .null => return []
      | entry => return entry :: (← targetsFrom table (place + 1) its)

namespace Launch

variable (launch : Launch) (call : Call) (table : Table)

/-- A narrow kernel counts the words of the table in halves. -/
def wordAt (base i primeid : Nat) : Option Load :=
  let place := i * MAXP + primeid
  if call.isU64 primeid then (table (base + place)).map fun entry => ⟨entry, .whole⟩
  else (table (base + place / 2)).map fun entry => ⟨entry, if place % 2 = 0 then .low else .high⟩

def loads (i primeid : Nat) : Option (List Load) :=
  match launch.kernel with
  | .add_scalar_reuse_b___ => do return [← wordAt call table launch.b i primeid]
  | .mult_scalar_reuse_b___ => do
      return [← wordAt call table launch.b i primeid, ← wordAt call table launch.b_shoup i primeid]
  | _ => (table (launch.b + i)).map fun entry => [⟨entry, .whole⟩]

def visit (its : Nat) (thread : Thread) (i : Nat) : Option Visit := do
  let primeid := call.primeid launch.special thread.limb
  let loads ← launch.loads call table i primeid
  let targets ← targetsFrom table (launch.a + i * its) its
  return ⟨launch.kernel, primeid, thread.limb, thread.idx, loads, targets⟩

def threads (gridz : Nat) : List Thread :=
  (List.range gridz).flatMap fun z => (List.range launch.limbs).flatMap fun limb =>
    (List.range (128 * (call.cc.N / 128))).map fun idx => ⟨z, limb, idx⟩

/-- A thread passes over every part that lies some grids behind its block. -/
def visits (partb : Nat) (thread : Thread) : Option (List Visit) :=
  (GridStride.rounds (call.parta / call.its partb) (call.gridz partb) thread.z).mapM
    (launch.visit call table (call.its partb) thread)

end Launch

/-- A coefficient of an operand, which is known by the address of its limbs. -/
structure Cell where
  operand : Nat
  special : Bool
  limb : Nat
  idx : Nat
deriving DecidableEq, Repr

abbrev Memory := Cell → Nat

/-- These are the addresses and the scalars that the entries of a table stand for. -/
structure Operands where
  parta : List Nat
  partb : List Nat
  vector : List (List Nat)
  vector_shoup : List (List Nat)

def Part.take : Part → Nat → Nat
  | .whole, word => word
  | .low, word => word % 2 ^ 32
  | .high, word => word / 2 ^ 32

namespace Operands

variable (operands : Operands)

/-- A pointer leads to a coefficient of its operand. -/
def cell (limb idx : Nat) : Entry → Option Cell
  | .target position special => operands.parta[position]?.map fun part => ⟨part, special, limb, idx⟩
  | .source position special => operands.partb[position]?.map fun part => ⟨part, special, limb, idx⟩
  | _ => none

/-- The address of a partition is no scalar that a kernel could use. -/
def scalarWord : Entry → Option Nat
  | .null => some 0
  | .scalar position prime => (operands.vector.getD position [])[prime]?
  | .shoup position prime => (operands.vector_shoup.getD position [])[prime]?
  | _ => none

def loadWord (kernel : Kernel) (memory : Memory) (limb idx : Nat) (load : Load) : Option Nat :=
  if kernel.scalar then (operands.scalarWord load.entry).map load.part.take
  else (operands.cell limb idx load.entry).map memory

end Operands

section Execution

variable (call : Call) (operands : Operands)

/-- A pass loads its operand once and then visits its targets. -/
def Visit.execute (visit : Visit) (memory : Memory) : Option Memory := do
  let words ← visit.loads.mapM (operands.loadWord visit.kernel memory visit.limb visit.idx)
  visit.targets.foldlM (fun memory target => do
    let cell ← operands.cell visit.limb visit.idx target
    let word := visit.kernel.word call.cc (call.isU64 visit.primeid) visit.primeid
      (words.getD 0 0) (words.getD 1 0) (memory cell)
    return Function.update memory cell word) memory

def Launch.runThread (launch : Launch) (table : Table) (partb : Nat) (memory : Memory)
    (thread : Thread) : Option Memory :=
  (GridStride.rounds (call.parta / call.its partb) (call.gridz partb) thread.z).foldlM
    (fun memory i => do
      (← launch.visit call table (call.its partb) thread i).execute call operands memory) memory

/-- The threads of each launch run in some order. -/
def Work.run (work : Work) (partb : Nat) (orders : Launch → List Thread) (memory : Memory) :
    Option Memory :=
  work.launches.foldlM (fun memory launch =>
    (orders launch).foldlM (launch.runThread call operands work.table partb) memory) memory

/-- These are the passes of all threads of a call. -/
def Work.visits (work : Work) (partb : Nat) : Option (List Visit) := do
  let launches ← work.launches.mapM fun launch => do
    let threads ← (launch.threads call (call.gridz partb)).mapM
      (launch.visits call work.table partb)
    return threads.flatten
  return launches.flatten

end Execution

/-- This is the operand of a kernel at one limb. -/
def Kernel.operand (kernel : Kernel) (isU64 special : Bool) (i primeid : Nat) : List Load :=
  let part : Part := if isU64 then .whole else .low
  match kernel with
  | .add_scalar_reuse_b___ => [⟨.scalar i primeid, part⟩]
  | .mult_scalar_reuse_b___ => [⟨.scalar i primeid, part⟩, ⟨.shoup i primeid, part⟩]
  | _ => [⟨.source i special, .whole⟩]

/-- A single operation updates all coefficients of one target with one operand. -/
def Launch.single (launch : Launch) (call : Call) (i target : Nat) : List Visit :=
  (List.range launch.limbs).flatMap fun limb => (List.range call.cc.N).map fun idx =>
    let primeid := call.primeid launch.special limb
    ⟨launch.kernel, primeid, limb, idx,
      launch.kernel.operand (call.isU64 primeid) launch.special i primeid,
      [.target target launch.special]⟩

/-- The loop combines each operand with its stride of targets. -/
def Work.loop (work : Work) (call : Call) (partb : Nat) : List Visit :=
  (List.range partb).flatMap fun i => (List.range call.stride).flatMap fun j =>
    work.launches.flatMap fun launch => launch.single call i (call.stride * i + j)

/-- A pass with several targets is one update of each of them. -/
def Visit.updates (visit : Visit) : List Visit :=
  visit.targets.map fun target => { visit with targets := [target] }

/-- The batched operations of a partition. -/
inductive Operation
  | addBatchManyToOne (partb : Nat) (sub exta extb : Bool)
  | multPtBatchManyToOne (partb : Nat)
  | addScalarBatchManyToOne (vector : List (List Nat))
  | multScalarBatchManyToOne (vector vector_shoup : List (List Nat))
deriving DecidableEq, Repr

namespace Operation

def partb : Operation → Nat
  | addBatchManyToOne partb _ _ _ => partb
  | multPtBatchManyToOne partb => partb
  | addScalarBatchManyToOne vector => vector.length
  | multScalarBatchManyToOne vector _ => vector.length

def work (call : Call) : Operation → Option Work
  | addBatchManyToOne partb sub exta extb => call.addBatchManyToOne partb sub exta extb
  | multPtBatchManyToOne partb => some (call.multPtBatchManyToOne partb)
  | addScalarBatchManyToOne vector => some (call.addScalarBatchManyToOne vector)
  | multScalarBatchManyToOne vector vector_shoup =>
      some (call.multScalarBatchManyToOne vector vector_shoup)

/-- The operands of an operation have these scalars. -/
def Scalars (operands : Operands) : Operation → Prop
  | addScalarBatchManyToOne vector => operands.vector = vector
  | multScalarBatchManyToOne vector vector_shoup =>
      operands.vector = vector ∧ operands.vector_shoup = vector_shoup
  | _ => True

end Operation

/-- The targets are distinct partitions, and no operand is a target. -/
structure Operands.Separate (operands : Operands) (call : Call) (operation : Operation) : Prop where
  parta : operands.parta.length = call.parta
  partb : operands.partb.length = operation.partb
  scalars : operation.Scalars operands
  distinct : operands.parta.Nodup
  apart : ∀ part ∈ operands.partb, part ∉ operands.parta

/-- Each update of the loop of single operations happens exactly once and no other one does, and
every order of the threads leaves the memory that the loop leaves. -/
def Operation.UpdatesOnce (call : Call) (operation : Operation) : Prop :=
  ∃ work, operation.work call = some work ∧
    (∃ visits, work.visits call operation.partb = some visits ∧
      (visits.flatMap Visit.updates).Perm (work.loop call operation.partb)) ∧
    ∀ operands : Operands, operands.Separate call operation →
      ∀ orders : Launch → List Thread,
        (∀ launch ∈ work.launches,
          (orders launch).Perm (launch.threads call (call.gridz operation.partb))) →
        ∀ memory, ∃ after, work.run call operands operation.partb orders memory = some after ∧
          (work.loop call operation.partb).foldlM
            (fun memory visit => visit.execute call operands memory) memory = some after

end Fideslib.ManyToOne
