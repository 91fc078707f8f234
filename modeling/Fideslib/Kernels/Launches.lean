/-
This file proves for every kernel exactly when a compressed plaintext acts like the expanded one.
-/

import Fideslib.Kernels.Compression

namespace Fideslib.Kernels

open LinearTransform (ffs)
open Lockstep (InStep)

/-- The threads of a launch run in some order. -/
structure Launch where
  device : Device
  grid : Grid
  primeid_init : Nat
  kernel : Kernel
  slots : Nat
  order : List Thread
  memory : Memory

namespace Launch

variable (launch : Launch)

def N : Nat := launch.kernel.coefficients launch.grid

def threads (elem : Nat) : Program Unit := launch.order.forM fun thread =>
  launch.kernel.thread launch.device launch.grid launch.primeid_init elem thread

def run (elem : Nat) (memory : Memory) : Option Memory :=
  ((launch.threads elem).run memory).map Prod.snd

def logratio : Nat := logstride launch.N (2 * launch.slots)

/-- This memory has all coefficients of the plaintexts. -/
def expanded (memory : Memory) : Memory :=
  expand launch.kernel.plaintexts launch.logratio memory

/-- The compressed operand gives exactly the results of the expanded one. -/
def Agrees : Prop :=
  ∃ after, launch.run (2 * launch.slots) launch.memory = some after ∧
    launch.run launch.N (launch.expanded launch.memory) = some (launch.expanded after)

/-- The launch covers the ring, and the operands have their sizes. -/
structure Meets : Prop where
  ring : ∃ logN, launch.N = 2 ^ logN
  slotCount : ∃ logSlots, launch.slots = 2 ^ logSlots
  within : 2 * launch.slots ≤ launch.N
  rows : 0 < launch.grid.limbs
  inside : ∀ thread ∈ launch.order, thread.Inside launch.grid
  covers : ∀ thread : Thread, thread.Inside launch.grid → thread ∈ launch.order
  separate : launch.kernel.Separate
  sized : Sized launch.kernel launch.grid.limbs launch.N (2 * launch.slots) launch.memory

end Launch

/-- This kernel does not read the number of words. -/
def Kernel.ignoresSize : Kernel → Bool
  | .addMult_ .. => true
  | _ => false

section Steps

variable {kernel : Kernel} {device : Device} {grid : Grid} {primeid_init elem k : Nat}
  {thread : Thread}

/-- The full operand is its own expansion. -/
theorem addMult_inStep {l l1 l2 : Nat} (isAddMult : kernel = .addMult_ l l1 l2)
    (separate : kernel.Separate) (positive : 0 < grid.blockDim * grid.gridDim)
    (inside : thread.Inside grid) :
    InStep (Expands kernel grid.limbs (grid.blockDim * grid.gridDim)
        (grid.blockDim * grid.gridDim) 0)
      (addMult_ device grid primeid_init thread l l1 l2)
      (addMult_ device grid primeid_init thread l l1 l2) := by
  have bound := Thread.idx_lt inside
  have row : thread.limb = kernel.firstLimb + thread.limb := by
    rw [isAddMult]
    exact (Nat.zero_add _).symm
  have target : l ∈ kernel.full := by
    rw [isAddMult]
    exact List.mem_cons_self
  have source : l1 ∈ kernel.full := by
    rw [isAddMult]
    exact List.mem_cons_of_mem _ List.mem_cons_self
  have operand : l2 ∈ kernel.plaintexts := by
    rw [isAddMult]
    exact List.mem_cons_self
  have whole : grid.blockDim * grid.gridDim = grid.blockDim * grid.gridDim * 2 ^ 0 := by
    rw [pow_zero, mul_one]
  have same : InStep (Expands kernel grid.limbs (grid.blockDim * grid.gridDim)
        (grid.blockDim * grid.gridDim) 0)
      (read l2 (kernel.firstLimb + thread.limb) (thread.idx grid))
      (read l2 (kernel.firstLimb + thread.limb) (thread.idx grid)) := by
    have word := read_plaintext positive whole operand inside.limb bound
    rw [logstride_self positive, Nat.shiftRight_zero] at word
    exact word
  unfold addMult_
  dsimp only
  generalize primeid device primeid_init thread = prime
  rw [row]
  apply InStep.bind (read_full separate target inside.limb bound)
  intro old
  apply InStep.bind (read_full separate source inside.limb bound)
  intro first
  apply InStep.bind same
  intro second
  exact write_full separate target inside.limb bound _

/-- Every thread of a kernel that reads the size, or has the full size, does the same on both
memories. -/
theorem thread_inStep (separate : kernel.Separate) (positive : 0 < elem)
    (whole : kernel.coefficients grid = elem * 2 ^ k)
    (sizes : kernel.ignoresSize = true → k = 0) (inside : thread.Inside grid) :
    InStep (Expands kernel grid.limbs (kernel.coefficients grid) elem k)
      (kernel.thread device grid primeid_init elem thread)
      (kernel.thread device grid primeid_init (kernel.coefficients grid) thread) := by
  cases kernel with
  | add_ a b =>
      exact combine_inStep separate rfl positive whole inside _ List.mem_cons_self
        List.mem_cons_self List.mem_cons_self
  | sub_ a b =>
      exact combine_inStep separate rfl positive whole inside _ List.mem_cons_self
        List.mem_cons_self List.mem_cons_self
  | addTo_ a b c =>
      exact combine_inStep separate rfl positive whole inside _ List.mem_cons_self
        (List.mem_cons_of_mem _ List.mem_cons_self) List.mem_cons_self
  | subTo_ a b c =>
      exact combine_inStep separate rfl positive whole inside _ List.mem_cons_self
        (List.mem_cons_of_mem _ List.mem_cons_self) List.mem_cons_self
  | mult_ a b =>
      exact combine_inStep separate rfl positive whole inside _ List.mem_cons_self
        List.mem_cons_self List.mem_cons_self
  | Mult_ l l1 l2 =>
      exact combine_inStep separate rfl positive whole inside _ List.mem_cons_self
        (List.mem_cons_of_mem _ List.mem_cons_self) List.mem_cons_self
  | addMult_ l l1 l2 =>
      have full := sizes rfl
      subst full
      rw [pow_zero, mul_one] at whole
      subst whole
      exact addMult_inStep rfl separate positive inside
  | dotProductPt_ c0 c1 c0s c1s pts ptroffset =>
      exact dotProductPt_inStep rfl separate positive whole inside
  | multpt_fusion M A res pt primeid_rescale =>
      exact multpt_fusion_inStep rfl separate positive whole inside

/-- A read finds a word and changes nothing. -/
theorem read_ran {buffer limb idx word : Nat} {memory after : Memory}
    (ran : (read buffer limb idx).run memory = some (word, after)) :
    idx < (memory buffer limb).length ∧ after = memory := by
  obtain ⟨found, there, same⟩ := Option.map_eq_some_iff.mp ran
  cases same
  exact ⟨(List.getElem?_eq_some_iff.mp there).1, rfl⟩

/-- A thread that returns has read its plaintext at its own index, and it has written to the
ciphertext only. -/
theorem addMult_ran {l l1 l2 : Nat} {memory after : Memory} {value : Unit}
    (ran : (addMult_ device grid primeid_init thread l l1 l2).run memory = some (value, after)) :
    thread.idx grid < (memory l2 thread.limb).length ∧
      ∀ buffer, buffer ≠ l → after buffer = memory buffer := by
  unfold addMult_ at ran
  dsimp only at ran
  rw [StateT.run_bind] at ran
  obtain ⟨⟨old, first⟩, readOld, afterOld⟩ := Option.bind_eq_some_iff.mp ran
  rw [(read_ran readOld).2, StateT.run_bind] at afterOld
  obtain ⟨⟨factor, second⟩, readFactor, afterFactor⟩ := Option.bind_eq_some_iff.mp afterOld
  rw [(read_ran readFactor).2, StateT.run_bind] at afterFactor
  obtain ⟨⟨word, third⟩, readWord, afterWord⟩ := Option.bind_eq_some_iff.mp afterFactor
  obtain ⟨bound, same⟩ := read_ran readWord
  refine ⟨bound, ?_⟩
  intro buffer apart
  rw [same] at afterWord
  change (if _ then _ else _) = some (value, after) at afterWord
  split at afterWord
  · cases afterWord
    funext row
    exact if_neg fun here => apart here.1
  · cases afterWord

end Steps

/-- A loop fails when a property of all its states makes one of its rounds fail. -/
theorem forM_fails {Item : Type} {body : Item → Program Unit} {items : List Item} {item : Item}
    (property : Memory → Prop)
    (kept : ∀ item value before after, property before →
      (body item).run before = some (value, after) → property after)
    (fails : ∀ before, property before → (body item).run before = none)
    (listed : item ∈ items) {memory : Memory} (first : property memory) :
    (items.forM body).run memory = none := by
  induction items generalizing memory with
  | nil => cases listed
  | cons head rest inductionHypothesis =>
      change (body head >>= fun _ => rest.forM body).run memory = none
      rw [StateT.run_bind]
      rcases List.mem_cons.mp listed with rfl | later
      · rw [fails memory first]
        rfl
      · cases ran : (body head).run memory with
        | none => rfl
        | some result =>
            obtain ⟨value, after⟩ := result
            exact inductionHypothesis later (kept head value memory after first ran)

namespace Launch

variable {launch : Launch}

/-- The ratio of the sizes is a power of two. -/
theorem Meets.whole (meets : launch.Meets) :
    launch.N = 2 * launch.slots * 2 ^ launch.logratio := by
  obtain ⟨logN, ring⟩ := meets.ring
  obtain ⟨logSlots, slotCount⟩ := meets.slotCount
  have within := meets.within
  have size : 2 * launch.slots = 2 ^ (logSlots + 1) := by rw [slotCount, pow_succ, mul_comm]
  rw [ring, size] at within
  have order : logSlots + 1 ≤ logN := (Nat.pow_le_pow_iff_right (by decide)).mp within
  have whole : launch.N = 2 * launch.slots * 2 ^ (logN - (logSlots + 1)) := by
    rw [ring, size, ← pow_add, Nat.add_sub_cancel' order]
  have positive : 0 < 2 * launch.slots := by
    rw [size]
    exact Nat.two_pow_pos _
  rw [logratio, logstride_eq positive whole]
  exact whole

theorem Meets.positive (meets : launch.Meets) : 0 < 2 * launch.slots := by
  obtain ⟨logSlots, slotCount⟩ := meets.slotCount
  rw [slotCount]
  exact Nat.mul_pos two_pos (Nat.two_pow_pos _)

theorem agrees_of_sizes (meets : launch.Meets)
    (sizes : launch.kernel.ignoresSize = true → 2 * launch.slots = launch.N) :
    launch.Agrees := by
  have full : launch.kernel.ignoresSize = true → launch.logratio = 0 := by
    intro ignores
    rw [logratio, sizes ignores]
    exact logstride_self (by rw [← sizes ignores]; exact meets.positive)
  have steps : InStep (Expands launch.kernel launch.grid.limbs launch.N (2 * launch.slots)
      launch.logratio) (launch.threads (2 * launch.slots)) (launch.threads launch.N) := by
    apply InStep.forM
    intro thread listed
    exact thread_inStep meets.separate meets.positive meets.whole full (meets.inside thread listed)
  obtain ⟨value, after, dense, ran, denseRan, -, rfl⟩ :=
    steps launch.memory (launch.expanded launch.memory) ⟨meets.sized, rfl⟩
  refine ⟨after, ?_, ?_⟩
  · rw [run, ran]
    rfl
  · rw [run, denseRan]
    rfl

theorem sizes_of_agrees (meets : launch.Meets) (agrees : launch.Agrees)
    (ignores : launch.kernel.ignoresSize = true) : 2 * launch.slots = launch.N := by
  by_contra different
  have short : 2 * launch.slots < launch.N := lt_of_le_of_ne meets.within different
  obtain ⟨after, ran, -⟩ := agrees
  have failed : (launch.threads (2 * launch.slots)).run launch.memory = none := by
    obtain ⟨device, grid, primeid_init, kernel, slots, order, memory⟩ := launch
    cases kernel with
    | addMult_ l l1 l2 =>
        have apart : l2 ≠ l := by
          intro same
          exact meets.separate.apart l List.mem_cons_self (by rw [same]; exact List.mem_cons_self)
        have blocks : 0 < grid.blockDim := by
          apply Nat.pos_of_ne_zero
          intro none
          change 2 * slots < grid.blockDim * grid.gridDim at short
          rw [none, Nat.zero_mul] at short
          exact Nat.not_lt_zero _ short
        have covered := meets.covers ⟨2 * slots / grid.blockDim, 0, 2 * slots % grid.blockDim⟩
          ⟨Nat.div_lt_of_lt_mul short, meets.rows, Nat.mod_lt _ blocks⟩
        apply forM_fails (fun memory => (memory l2 0).length = 2 * slots) _ _ covered
        · exact meets.sized.compressed l2 List.mem_cons_self 0 meets.rows
        · intro thread value before next sized moved
          rw [(addMult_ran moved).2 l2 apart]
          exact sized
        · intro before sized
          cases moved : (Kernel.thread device grid primeid_init (2 * slots)
              ⟨2 * slots / grid.blockDim, 0, 2 * slots % grid.blockDim⟩
              (.addMult_ l l1 l2)).run before with
          | none => rfl
          | some result =>
              have bound := (addMult_ran moved).1
              rw [sized, Thread.idx, Nat.div_add_mod] at bound
              exact absurd bound (Nat.lt_irrefl _)
    | _ => cases ignores
  rw [run, failed] at ran
  cases ran

end Launch

/-- A launch on a compressed plaintext gives exactly the results of the expanded one if its kernel
reads the number of words or all words are there. -/
theorem compressed_operand_iff (launch : Launch) (meets : launch.Meets) :
    launch.Agrees ↔ (launch.kernel.ignoresSize = true → 2 * launch.slots = launch.N) := by
  constructor
  · intro agrees ignores
    exact Launch.sizes_of_agrees meets agrees ignores
  · intro sizes
    exact Launch.agrees_of_sizes meets sizes

/-- A launch on a ring of four coefficients has a plaintext of two words. -/
def sparseLaunch (kernel : Kernel) : Launch where
  device := ⟨fun id => id, fun _ => 17, fun _ => true, fun _ _ => 0⟩
  grid := ⟨GetBlockDimX 4, GetGridDimX 4, 1⟩
  primeid_init := 0
  kernel := kernel
  slots := 1
  order := (List.range 4).map fun threadIdx => ⟨0, 0, threadIdx⟩
  memory := fun buffer _ => if buffer = 2 then [3, 4] else [1, 1, 1, 1]

theorem sparseLaunch_meets {kernel : Kernel}
    (listed : kernel = .Mult_ 0 1 2 ∨ kernel = .addMult_ 0 1 2) :
    (sparseLaunch kernel).Meets := by
  have operands : kernel.full = [0, 1] ∧ kernel.plaintexts = [2] ∧
      kernel.coefficients (sparseLaunch kernel).grid = 4 := by
    rcases listed with rfl | rfl <;> exact ⟨rfl, rfl, rfl⟩
  obtain ⟨full, plaintexts, coefficients⟩ := operands
  constructor
  case ring => exact ⟨2, coefficients⟩
  case slotCount => exact ⟨0, rfl⟩
  case within =>
    change 2 * 1 ≤ kernel.coefficients _
    rw [coefficients]
    decide
  case rows => exact Nat.zero_lt_one
  case inside =>
    intro thread here
    obtain ⟨threadIdx, below, rfl⟩ := List.mem_map.mp here
    exact ⟨Nat.zero_lt_one, Nat.zero_lt_one, List.mem_range.mp below⟩
  case covers =>
    rintro ⟨blockIdx, limb, threadIdx⟩ ⟨block, row, position⟩
    have first : blockIdx = 0 := Nat.lt_one_iff.mp block
    have only : limb = 0 := Nat.lt_one_iff.mp row
    subst first only
    exact List.mem_map.mpr ⟨threadIdx, List.mem_range.mpr position, rfl⟩
  case separate =>
    constructor
    · change ∀ buffer ∈ kernel.full, buffer ∉ kernel.plaintexts
      rw [full, plaintexts]
      decide
    · intro c0 c1 c0s c1s pts ptroffset isDot
      rcases listed with rfl | rfl <;> cases isDot
  case sized =>
    constructor
    · intro buffer here limb _
      change buffer ∈ kernel.full at here
      change List.length (if buffer = 2 then _ else _) = kernel.coefficients _
      rw [full] at here
      rw [coefficients, if_neg]
      · rfl
      · rintro rfl
        exact absurd here (by decide)
    · intro buffer here limb _
      change buffer ∈ kernel.plaintexts at here
      rw [plaintexts] at here
      change List.length (if buffer = 2 then _ else _) = 2
      rw [if_pos (List.mem_singleton.mp here)]
      rfl

theorem compressed_operand_iff_mult : (sparseLaunch (.Mult_ 0 1 2)).Agrees :=
  (compressed_operand_iff (sparseLaunch (.Mult_ 0 1 2)) (sparseLaunch_meets (Or.inl rfl))).mpr
    fun ignores => by cases ignores

/-- The second thread reads the word of another stride, and the third reads behind the plaintext. -/
theorem addMult_reads_uncompressed :
    (sparseLaunch (.addMult_ 0 1 2)).Meets ∧ ¬(sparseLaunch (.addMult_ 0 1 2)).Agrees ∧
      (Launch.run { sparseLaunch (.addMult_ 0 1 2) with order := [⟨0, 0, 1⟩] } 2
        (sparseLaunch (.addMult_ 0 1 2)).memory).map (fun after => after 0 0) =
          some [1, 5, 1, 1] ∧
      (Launch.run { sparseLaunch (.addMult_ 0 1 2) with order := [⟨0, 0, 1⟩] } 4
        (expand [2] 1 (sparseLaunch (.addMult_ 0 1 2)).memory)).map (fun after => after 0 0) =
          some [1, 4, 1, 1] := by
  refine ⟨sparseLaunch_meets (Or.inr rfl), ?_, by decide +kernel, by decide +kernel⟩
  rintro ⟨after, ran, -⟩
  have failed : (sparseLaunch (.addMult_ 0 1 2)).run 2 (sparseLaunch (.addMult_ 0 1 2)).memory =
      none := by
    have stops : ((sparseLaunch (.addMult_ 0 1 2)).run 2
      (sparseLaunch (.addMult_ 0 1 2)).memory).isNone = true := by decide +kernel
    exact Option.isNone_iff_eq_none.mp stops
  exact absurd (failed.symm.trans ran) (by simp)

end Fideslib.Kernels
