/-
This file decides which kernels treat a compressed plaintext like the expanded one.
-/

import Fideslib.Kernels.Elementwise
import Fideslib.Library.Run

namespace Fideslib.Kernels

open LinearTransform (ffs)
open Lockstep (InStep)

/-- Every word of a compressed limb stands for one stride of coefficients. -/
def expandLimb (k : Nat) (words : List Nat) : List Nat :=
  (List.range (words.length * 2 ^ k)).map fun idx => words.getD (idx >>> k) 0

theorem expandLimb_getElem? (k : Nat) (words : List Nat) (idx : Nat) :
    (expandLimb k words)[idx]? = words[idx >>> k]? := by
  rw [Nat.shiftRight_eq_div_pow, expandLimb]
  by_cases inside : idx < words.length * 2 ^ k
  · have below : idx / 2 ^ k < words.length := (Nat.div_lt_iff_lt_mul (Nat.two_pow_pos k)).mpr inside
    rw [List.getElem?_map, List.getElem?_range inside, Option.map_some, Nat.shiftRight_eq_div_pow,
      List.getD_eq_getElem?_getD, List.getElem?_eq_getElem below, Option.getD_some]
  · have beyond : words.length ≤ idx / 2 ^ k :=
      (Nat.le_div_iff_mul_le (Nat.two_pow_pos k)).mpr (Nat.le_of_not_lt inside)
    rw [List.getElem?_eq_none beyond, List.getElem?_eq_none]
    rw [List.length_map, List.length_range]
    exact Nat.le_of_not_lt inside

/-- The plaintexts get back all their coefficients. -/
def expand (plaintexts : List Nat) (k : Nat) (memory : Memory) : Memory := fun buffer limb =>
  if buffer ∈ plaintexts then expandLimb k (memory buffer limb) else memory buffer limb

theorem ffs_two_pow (k : Nat) : ffs (2 ^ k) = k + 1 := by
  rw [ffs, if_neg (Nat.two_pow_pos k).ne', padicValNat.prime_pow]

theorem logstride_eq {total elem k : Nat} (positive : 0 < elem) (whole : total = elem * 2 ^ k) :
    logstride total elem = k := by
  rw [logstride, whole, Nat.mul_div_cancel_left _ positive, ffs_two_pow, Nat.add_sub_cancel]

theorem logstride_self {total : Nat} (positive : 0 < total) : logstride total total = 0 :=
  logstride_eq positive (by rw [pow_zero, mul_one])

/-- The limbs of a kernel's operands have the sizes that their contents need. -/
structure Sized (kernel : Kernel) (limbs N elem : Nat) (memory : Memory) : Prop where
  full : ∀ buffer ∈ kernel.full, ∀ limb < limbs,
    (memory buffer (kernel.firstLimb + limb)).length = N
  compressed : ∀ buffer ∈ kernel.plaintexts, ∀ limb < limbs,
    (memory buffer (kernel.firstLimb + limb)).length = elem

/-- A kernel may be launched on these operands. -/
structure Kernel.Separate (kernel : Kernel) : Prop where
  apart : ∀ buffer ∈ kernel.full, buffer ∉ kernel.plaintexts
  paired : ∀ c0 c1 c0s c1s pts ptroffset, kernel = .dotProductPt_ c0 c1 c0s c1s pts ptroffset →
    c0s ≠ [] ∧ c1s.length = c0s.length ∧ pts.length = c0s.length

/-- The second memory has the expanded plaintexts of the first. -/
def Expands (kernel : Kernel) (limbs N elem k : Nat) (memory dense : Memory) : Prop :=
  Sized kernel limbs N elem memory ∧ dense = expand kernel.plaintexts k memory

section Access

variable {kernel : Kernel} {limbs N elem k : Nat}

/-- A coefficient of a full operand is the same in both memories. -/
theorem read_full (separate : kernel.Separate) {buffer : Nat} (operand : buffer ∈ kernel.full)
    {limb idx : Nat} (row : limb < limbs) (inside : idx < N) :
    InStep (Expands kernel limbs N elem k) (read buffer (kernel.firstLimb + limb) idx)
      (read buffer (kernel.firstLimb + limb) idx) := by
  rintro memory dense ⟨sized, rfl⟩
  have bound : idx < (memory buffer (kernel.firstLimb + limb)).length := by
    rw [sized.full buffer operand limb row]
    exact inside
  refine ⟨(memory buffer (kernel.firstLimb + limb))[idx], memory,
    expand kernel.plaintexts k memory, ?_, ?_, sized, rfl⟩
  · change Option.map _ _ = _
    rw [List.getElem?_eq_getElem bound]
    rfl
  · change Option.map _ _ = _
    rw [expand, if_neg (separate.apart buffer operand), List.getElem?_eq_getElem bound]
    rfl

/-- The word of a stride stands for every coefficient of the stride. -/
theorem read_plaintext (positive : 0 < elem) (whole : N = elem * 2 ^ k) {buffer : Nat}
    (operand : buffer ∈ kernel.plaintexts) {limb idx : Nat} (row : limb < limbs)
    (inside : idx < N) :
    InStep (Expands kernel limbs N elem k)
      (read buffer (kernel.firstLimb + limb) (idx >>> logstride N elem))
      (read buffer (kernel.firstLimb + limb) (idx >>> logstride N N)) := by
  rintro memory dense ⟨sized, rfl⟩
  have total : 0 < N := lt_of_le_of_lt (Nat.zero_le idx) inside
  rw [logstride_eq positive whole, logstride_self total]
  have bound : idx >>> k < (memory buffer (kernel.firstLimb + limb)).length := by
    rw [sized.compressed buffer operand limb row, Nat.shiftRight_eq_div_pow,
      Nat.div_lt_iff_lt_mul (Nat.two_pow_pos k), ← whole]
    exact inside
  refine ⟨(memory buffer (kernel.firstLimb + limb))[idx >>> k], memory,
    expand kernel.plaintexts k memory, ?_, ?_, sized, rfl⟩
  · change Option.map _ _ = _
    rw [List.getElem?_eq_getElem bound]
    rfl
  · change Option.map _ _ = _
    rw [expand, if_pos operand, expandLimb_getElem?, Nat.shiftRight_zero,
      List.getElem?_eq_getElem bound]
    rfl

/-- A write to a full operand happens in both memories. -/
theorem write_full (separate : kernel.Separate) {buffer : Nat} (operand : buffer ∈ kernel.full)
    {limb idx : Nat} (row : limb < limbs) (inside : idx < N) (word : Nat) :
    InStep (Expands kernel limbs N elem k) (write buffer (kernel.firstLimb + limb) idx word)
      (write buffer (kernel.firstLimb + limb) idx word) := by
  rintro memory dense ⟨sized, rfl⟩
  have apart := separate.apart buffer operand
  have bound : idx < (memory buffer (kernel.firstLimb + limb)).length := by
    rw [sized.full buffer operand limb row]
    exact inside
  refine ⟨(), _, _, if_pos bound, ?_, ?_, rfl⟩
  · have same : expand kernel.plaintexts k memory buffer (kernel.firstLimb + limb) =
        memory buffer (kernel.firstLimb + limb) := if_neg apart
    refine (if_pos (by rw [same]; exact bound)).trans ?_
    congr 2
    funext other place
    unfold expand
    dsimp only
    by_cases here : other = buffer ∧ place = kernel.firstLimb + limb
    · rw [if_pos here, if_pos here, here.1, if_neg apart, if_neg apart]
    · rw [if_neg here, if_neg here]
  · constructor
    case full =>
      intro other listed place below
      split
      · rw [List.length_set]
        exact sized.full other listed place below
      · exact sized.full other listed place below
    case compressed =>
      intro other listed place below
      split
      · rw [List.length_set]
        exact sized.compressed other listed place below
      · exact sized.compressed other listed place below

end Access

end Fideslib.Kernels

namespace Fideslib.Kernels

open LinearTransform (ffs)
open Lockstep (InStep)

/-- A thread of a launch. -/
structure Thread.Inside (grid : Grid) (thread : Thread) : Prop where
  block : thread.blockIdx < grid.gridDim
  limb : thread.limb < grid.limbs
  position : thread.threadIdx < grid.blockDim

theorem Thread.idx_lt {grid : Grid} {thread : Thread} (inside : thread.Inside grid) :
    thread.idx grid < grid.blockDim * grid.gridDim := by
  have block := inside.block
  calc thread.idx grid < grid.blockDim * thread.blockIdx + grid.blockDim :=
        Nat.add_lt_add_left inside.position _
    _ = grid.blockDim * (thread.blockIdx + 1) := (Nat.mul_succ _ _).symm
    _ ≤ grid.blockDim * grid.gridDim := Nat.mul_le_mul_left _ block

theorem OFFSET_T_lt {grid : Grid} {thread : Thread} (inside : thread.Inside grid) {M i : Nat}
    (tile : i < M) :
    OFFSET_T grid thread M i + 1 < 2 * M * grid.blockDim * grid.gridDim := by
  have position := inside.position
  have block := inside.block
  calc OFFSET_T grid thread M i + 1
      < grid.blockDim * 2 * M * thread.blockIdx + 2 * grid.blockDim * (i + 1) := by
        have last : 2 * grid.blockDim * (i + 1) = 2 * grid.blockDim * i + 2 * grid.blockDim :=
          Nat.mul_succ _ _
        unfold OFFSET_T
        omega
    _ ≤ grid.blockDim * 2 * M * thread.blockIdx + 2 * grid.blockDim * M :=
        Nat.add_le_add_left (Nat.mul_le_mul_left _ tile) _
    _ = 2 * M * grid.blockDim * (thread.blockIdx + 1) := by ring
    _ ≤ 2 * M * grid.blockDim * grid.gridDim := Nat.mul_le_mul_left _ block

section Threads

variable {kernel : Kernel} {device : Device} {grid : Grid} {primeid_init N elem k : Nat}
  {thread : Thread}

/-- A thread that computes the word of its stride does the same on both memories. -/
theorem combine_inStep (separate : kernel.Separate) (first : kernel.firstLimb = 0)
    (positive : 0 < elem) (whole : grid.blockDim * grid.gridDim = elem * 2 ^ k)
    (inside : thread.Inside grid) (operation : Nat → Nat → Nat → Nat) {a b c : Nat}
    (target : a ∈ kernel.full) (source : b ∈ kernel.full) (operand : c ∈ kernel.plaintexts) :
    InStep (Expands kernel grid.limbs (grid.blockDim * grid.gridDim) elem k)
      (combine device grid primeid_init elem thread operation a b c)
      (combine device grid primeid_init (grid.blockDim * grid.gridDim) thread operation a b c) := by
  have bound := Thread.idx_lt inside
  have row : thread.limb = kernel.firstLimb + thread.limb := by rw [first, Nat.zero_add]
  unfold combine
  dsimp only
  rw [row]
  apply InStep.bind (read_full separate source inside.limb bound)
  intro old
  apply InStep.bind (read_plaintext positive whole operand inside.limb bound)
  intro word
  exact write_full separate target inside.limb bound _

/-- A table entry names one buffer. -/
theorem pointer_bind {Value : Type} {data : List Nat} {place buffer : Nat}
    (found : data[place]? = some buffer) (next : Nat → Program Value) :
    (pointer data place >>= next) = next buffer := by
  funext memory
  change (Option.map _ data[place]?).bind _ = _
  rw [found]
  rfl

section DotProduct

variable {c0 c1 ptroffset : Nat} {c0s c1s pts : List Nat}

theorem dotTerm_inStep (isDot : kernel = .dotProductPt_ c0 c1 c0s c1s pts ptroffset)
    (separate : kernel.Separate) (positive : 0 < elem)
    (whole : grid.blockDim * grid.gridDim = elem * 2 ^ k) (inside : thread.Inside grid) {i : Nat}
    (part : i < c0s.length) :
    InStep (Expands kernel grid.limbs (grid.blockDim * grid.gridDim) elem k)
      (dotTerm device grid primeid_init elem thread (c0s ++ c1s ++ pts) ptroffset c0s.length i)
      (dotTerm device grid primeid_init (grid.blockDim * grid.gridDim) thread
        (c0s ++ c1s ++ pts) ptroffset c0s.length i) := by
  have bound := Thread.idx_lt inside
  obtain ⟨-, secondLength, wordLength⟩ := separate.paired _ _ _ _ _ _ isDot
  have offset : ptroffset = kernel.firstLimb := by rw [isDot]; rfl
  have wordFound : (c0s ++ c1s ++ pts)[c0s.length * 2 + i]? = some pts[i] := by
    rw [List.getElem?_append_right (by rw [List.length_append]; omega), List.length_append,
      secondLength, show c0s.length * 2 + i - (c0s.length + c0s.length) = i by omega]
    exact List.getElem?_eq_getElem _
  have firstFound : (c0s ++ c1s ++ pts)[i]? = some c0s[i] := by
    rw [List.append_assoc, List.getElem?_append_left part]
    exact List.getElem?_eq_getElem part
  have secondFound : (c0s ++ c1s ++ pts)[c0s.length + i]? = some c1s[i] := by
    rw [List.append_assoc, List.getElem?_append_right (Nat.le_add_right _ _),
      Nat.add_sub_cancel_left, List.getElem?_append_left (by omega)]
    exact List.getElem?_eq_getElem _
  have wordOperand : pts[i] ∈ kernel.plaintexts := by
    rw [isDot]
    exact List.getElem_mem _
  have firstOperand : c0s[i] ∈ kernel.full := by
    rw [isDot]
    exact List.mem_cons_of_mem _ (List.mem_cons_of_mem _
      (List.mem_append_left _ (List.getElem_mem _)))
  have secondOperand : c1s[i] ∈ kernel.full := by
    rw [isDot]
    exact List.mem_cons_of_mem _ (List.mem_cons_of_mem _
      (List.mem_append_right _ (List.getElem_mem _)))
  unfold dotTerm
  dsimp only
  rw [offset, pointer_bind wordFound, pointer_bind wordFound]
  apply InStep.bind (read_plaintext positive whole wordOperand inside.limb bound)
  intro word
  rw [pointer_bind firstFound]
  apply InStep.bind (read_full separate firstOperand inside.limb bound)
  intro first
  rw [pointer_bind secondFound]
  apply InStep.bind (read_full separate secondOperand inside.limb bound)
  intro second
  exact InStep.returns _

theorem dotProductPt_inStep (isDot : kernel = .dotProductPt_ c0 c1 c0s c1s pts ptroffset)
    (separate : kernel.Separate) (positive : 0 < elem)
    (whole : grid.blockDim * grid.gridDim = elem * 2 ^ k) (inside : thread.Inside grid) :
    InStep (Expands kernel grid.limbs (grid.blockDim * grid.gridDim) elem k)
      (dotProductPt_ device grid primeid_init elem thread c0 c1 (c0s ++ c1s ++ pts) ptroffset
        c0s.length)
      (dotProductPt_ device grid primeid_init (grid.blockDim * grid.gridDim) thread c0 c1
        (c0s ++ c1s ++ pts) ptroffset c0s.length) := by
  have bound := Thread.idx_lt inside
  obtain ⟨some, -⟩ := separate.paired _ _ _ _ _ _ isDot
  have parts : 0 < c0s.length := List.length_pos_iff.mpr some
  have offset : ptroffset = kernel.firstLimb := by rw [isDot]; rfl
  unfold dotProductPt_
  dsimp only
  apply InStep.bind (dotTerm_inStep isDot separate positive whole inside parts)
  intro start
  apply InStep.bind
  · apply InStep.foldlM
    intro out i listed
    have part : i < c0s.length := by
      have range := List.mem_range'_1.mp listed
      omega
    apply InStep.bind (dotTerm_inStep isDot separate positive whole inside part)
    intro aux
    exact InStep.returns _
  · intro out
    have firstTarget : c0 ∈ kernel.full := by
      rw [isDot]
      exact List.mem_cons_self
    have secondTarget : c1 ∈ kernel.full := by
      rw [isDot]
      exact List.mem_cons_of_mem _ List.mem_cons_self
    rw [offset]
    apply InStep.bind (write_full separate firstTarget inside.limb bound _)
    intro _
    exact write_full separate secondTarget inside.limb bound _

end DotProduct

/-- The fused kernel finds the word of each coefficient of its tiles. -/
theorem multpt_fusion_inStep {M A res pt primeid_rescale : Nat}
    (isFused : kernel = .multpt_fusion M A res pt primeid_rescale) (separate : kernel.Separate)
    (positive : 0 < elem) (whole : 2 * M * grid.blockDim * grid.gridDim = elem * 2 ^ k)
    (inside : thread.Inside grid) :
    InStep (Expands kernel grid.limbs (2 * M * grid.blockDim * grid.gridDim) elem k)
      (multpt_fusion device grid primeid_init elem thread M A res pt primeid_rescale)
      (multpt_fusion device grid primeid_init (2 * M * grid.blockDim * grid.gridDim) thread M A
        res pt primeid_rescale) := by
  have row : thread.limb = kernel.firstLimb + thread.limb := by
    rw [isFused]
    exact (Nat.zero_add _).symm
  have shared : A ∈ kernel.full := by
    rw [isFused]
    exact List.mem_cons_self
  have source : res ∈ kernel.full := by
    rw [isFused]
    exact List.mem_cons_of_mem _ List.mem_cons_self
  have operand : pt ∈ kernel.plaintexts := by
    rw [isFused]
    exact List.mem_cons_self
  unfold multpt_fusion
  dsimp only
  apply InStep.forM
  intro i listed
  have second := OFFSET_T_lt inside (List.mem_range.mp listed)
  have first := Nat.lt_of_succ_lt second
  generalize primeid device primeid_init thread = prime
  rw [row]
  apply InStep.bind (read_full separate source inside.limb first)
  intro in0
  apply InStep.bind (read_full separate source inside.limb second)
  intro in1
  apply InStep.bind (read_plaintext positive whole operand inside.limb first)
  intro word0
  apply InStep.bind (read_plaintext positive whole operand inside.limb second)
  intro word1
  apply InStep.bind (read_full separate shared inside.limb first)
  intro old0
  apply InStep.bind (write_full separate shared inside.limb first _)
  intro _
  apply InStep.bind (read_full separate shared inside.limb second)
  intro old1
  exact write_full separate shared inside.limb second _

end Threads

end Fideslib.Kernels
