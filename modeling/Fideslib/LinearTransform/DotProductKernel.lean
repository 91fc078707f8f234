/-
This file proves what one launch of the dot product kernel writes.
-/

import Fideslib.LinearTransform.PointerTable

namespace Fideslib.LinearTransform

theorem modadd_mod {a b prime : Nat} (positive : 0 < prime) :
    modadd (a % prime) (b % prime) prime = (a + b) % prime := by
  have first := Nat.mod_lt a positive
  have second := Nat.mod_lt b positive
  rw [modadd, Nat.add_mod]
  split_ifs with below
  · exact (Nat.mod_eq_of_lt below).symm
  · have wraps := @Nat.mod_eq_sub_mod (a % prime + b % prime) prime (by omega)
    rw [wraps]
    exact (Nat.mod_eq_of_lt (by omega)).symm

namespace Batch

variable {batch : Batch} {transforms : Nat}

/-- The launch covers this many limbs. -/
def limbCount (batch : Batch) (special : Bool) : Nat :=
  if special then batch.layout.slimbsize else batch.layout.limbsize

def inputValue (batch : Batch) (special : Bool) (position limb idx : Nat) : Nat :=
  match batch.input[position]? with
  | some part =>
      if special then part.SPECIALlimb (batch.layout.special_start + limb) idx
      else part.limb limb idx
  | none => 0

/-- A null plaintext reads as zero. -/
def readWord (batch : Batch) (special : Bool) (position limb idx : Nat) : Option Nat :=
  match batch.pt[position]?.join with
  | some part => (words part special limb)[idx >>> batch.logstride]?
  | none => some 0

def wordValue (batch : Batch) (special : Bool) (position limb idx : Nat) : Nat :=
  (batch.readWord special position limb idx).getD 0

/-- This is the sum over the first baby steps, as the kernel reads its operands. -/
def dot (batch : Batch) (special : Bool) (c limb idx k j steps : Nat) : Nat :=
  (∑ i ∈ Finset.range steps, batch.inputValue special (2 * (k * batch.bStep + i) + c) limb idx *
    batch.wordValue special (k * batch.bStep * batch.gStep + j * batch.bStep + i) limb idx) %
      batch.layout.modulus special limb

def writeOf (batch : Batch) (special : Bool) (thread : Thread) (k j : Nat) : Write :=
  ⟨special, 2 * (k * batch.gStep + j) + thread.thready, thread.blocky, thread.idx,
    batch.dot special thread.thready thread.blocky thread.idx k j batch.bStep⟩

/-- The launch reads inside of every limb of every plaintext. -/
def Readable (batch : Batch) (special : Bool) : Prop :=
  ∀ position < batch.pt.length, ∀ limb < batch.limbCount special, ∀ idx < batch.layout.N,
    (batch.readWord special position limb idx).isSome

theorem dot_zero (special : Bool) (c limb idx k j : Nat) :
    batch.dot special c limb idx k j 0 = 0 := by
  simp [dot]

/-- One more baby step adds one more product. -/
theorem dot_succ {special : Bool} {limb : Nat} (positive : 0 < batch.layout.modulus special limb)
    (c idx k j steps : Nat) :
    batch.dot special c limb idx k j (steps + 1) =
      modadd (batch.dot special c limb idx k j steps)
        (modmult (batch.inputValue special (2 * (k * batch.bStep + steps) + c) limb idx)
          (batch.wordValue special (k * batch.bStep * batch.gStep + j * batch.bStep + steps) limb
            idx) (batch.layout.modulus special limb))
        (batch.layout.modulus special limb) := by
  rw [dot, Finset.sum_range_succ, dot, modmult, modadd_mod positive]

section

variable {table : Nat → Option Pointer} {special : Bool} {thread : Thread} {k : Nat}
variable (sized : batch.Sized transforms) (single : batch.stride = 1)
variable (loaded : batch.IsTable table) (allowed : special → batch.ext)
variable (half : thread.thready < 2) (inRange : k < transforms)

include sized single loaded allowed half inRange

theorem read_out {j : Nat} (inGiant : j < batch.gStep) :
    batch.readTable table special (batch.offset_out thread.thready + (k * batch.gStep + j)) =
      some (some ⟨.output (2 * (k * batch.gStep + j) + thread.thready), special⟩) := by
  have place := place_lt inRange inGiant
  have length := out_length sized single
  have inside : batch.offset_out thread.thready + (k * batch.gStep + j) < batch.half := by
    simp only [offset_out, Batch.half]
    split_ifs <;> omega
  rw [loaded special _ allowed inside, pointerAt, slotOperand_out sized single half place]
  rfl

theorem read_in {i : Nat} (inBaby : i < batch.bStep) :
    batch.readTable table special (batch.offset_in thread.thready + (k * batch.bStep + i)) =
      some (some ⟨.input (2 * (k * batch.bStep + i) + thread.thready), special⟩) := by
  have place := place_lt inRange inBaby
  have length := input_length sized single
  have inside : batch.offset_in thread.thready + (k * batch.bStep + i) < batch.half := by
    simp only [offset_in, Batch.half]
    split_ifs <;> omega
  rw [loaded special _ allowed inside, pointerAt, slotOperand_in sized single half place]
  rfl

omit single loaded allowed half in
theorem pt_lt {i j : Nat} (inBaby : i < batch.bStep) (inGiant : j < batch.gStep) :
    k * batch.bStep * batch.gStep + j * batch.bStep + i < batch.pt.length := by
  have place := place_lt (place_lt inRange inGiant) inBaby
  have same : k * batch.bStep * batch.gStep + j * batch.bStep + i =
      (k * batch.gStep + j) * batch.bStep + i := by ring
  rw [same, sized.pt]
  exact place

omit single half in
theorem read_pt {i j : Nat} (inBaby : i < batch.bStep) (inGiant : j < batch.gStep) :
    batch.readTable table special
        (batch.offset_pt + (k * batch.bStep * batch.gStep + j * batch.bStep + i)) =
      some ((batch.pt[k * batch.bStep * batch.gStep + j * batch.bStep + i]?.join).map fun _ =>
        ⟨.plaintext (k * batch.bStep * batch.gStep + j * batch.bStep + i), special⟩) := by
  have place := pt_lt sized inRange inBaby inGiant
  have inside : batch.offset_pt + (k * batch.bStep * batch.gStep + j * batch.bStep + i) <
      batch.half := by
    simp only [offset_pt, Batch.half]
    omega
  rw [loaded special _ allowed inside, pointerAt, slotOperand_pt, Option.map_map]
  rfl

omit loaded allowed in
theorem load_in {i : Nat} (inBaby : i < batch.bStep) :
    batch.loadInput (some ⟨.input (2 * (k * batch.bStep + i) + thread.thready), special⟩)
        thread.blocky thread.idx =
      some (batch.inputValue special (2 * (k * batch.bStep + i) + thread.thready) thread.blocky
        thread.idx) := by
  have place := place_lt inRange inBaby
  have length := input_length sized single
  have inside : 2 * (k * batch.bStep + i) + thread.thready < batch.input.length := by omega
  simp only [loadInput, inputValue, List.getElem?_eq_getElem inside, Option.map_some]

omit sized single loaded allowed half inRange in
/-- The product that a thread forms is that of the word it reads. -/
theorem multPt_eq (position input limb idx prime : Nat) :
    batch.multPt ((batch.pt[position]?.join).map fun _ => ⟨.plaintext position, special⟩) input limb
        idx prime =
      (batch.readWord special position limb idx).map fun word => modmult input word prime := by
  cases found : batch.pt[position]?.join with
  | none => simp [multPt, readWord, found, modmult]
  | some part =>
      have present : batch.pt[position]? = some (some part) := by
        rw [Option.join_eq_some_iff] at found
        exact found
      simp only [multPt, readWord, present, Option.join_some, Option.map_some,
        Option.bind_eq_bind, Option.bind_some]
      cases (words part special limb)[idx >>> batch.logstride]? <;> rfl

theorem giantStep_eq {i j : Nat} (inBaby : i < batch.bStep) (inGiant : j < batch.gStep)
    (readable : (batch.readWord special
      (k * batch.bStep * batch.gStep + j * batch.bStep + i) thread.blocky thread.idx).isSome)
    {state : (Nat → Nat) × List Write}
    (partialSum : state.1 j = batch.dot special thread.thready thread.blocky thread.idx k j i) :
    batch.giantStep table special thread k i
        (batch.inputValue special (2 * (k * batch.bStep + i) + thread.thready) thread.blocky
          thread.idx) state j =
      some (Function.update state.1 j
          (batch.dot special thread.thready thread.blocky thread.idx k j (i + 1)),
        state.2 ++ if i = batch.bStep - 1 then [batch.writeOf special thread k j] else []) := by
  obtain ⟨word, found⟩ := Option.isSome_iff_exists.mp readable
  have value : batch.wordValue special (k * batch.bStep * batch.gStep + j * batch.bStep + i)
      thread.blocky thread.idx = word := by rw [wordValue, found, Option.getD_some]
  have positive := sized.modulus_pos special thread.blocky
  have next := dot_succ positive thread.thready thread.idx k j i
  rw [value] at next
  have sum : (if i = 0 then
        modmult (batch.inputValue special (2 * (k * batch.bStep + i) + thread.thready)
          thread.blocky thread.idx) word (batch.layout.modulus special thread.blocky)
      else modadd (state.1 j)
        (modmult (batch.inputValue special (2 * (k * batch.bStep + i) + thread.thready)
          thread.blocky thread.idx) word (batch.layout.modulus special thread.blocky))
        (batch.layout.modulus special thread.blocky)) =
      batch.dot special thread.thready thread.blocky thread.idx k j (i + 1) := by
    rw [next, partialSum]
    split_ifs with first
    · rw [first, dot_zero, modadd, zero_add, if_pos]
      exact Nat.mod_lt _ positive
    · rfl
  simp only [giantStep, read_pt sized loaded allowed inRange inBaby inGiant, multPt_eq,
    found, Option.map_some, Option.bind_eq_bind, Option.bind_some, sum]
  by_cases last : i = batch.bStep - 1
  · have whole : i + 1 = batch.bStep := by
      have positive := sized.bStep_pos
      omega
    rw [if_pos last, if_pos last, read_out sized single loaded allowed half inRange inGiant,
      Option.bind_some, whole]
    rfl
  · rw [if_neg last, if_neg last, List.append_nil]
    rfl

/-- A baby step completes the same partial sums for the giant steps so far. -/
theorem giantSteps_eq {i : Nat} (inBaby : i < batch.bStep)
    (readable : ∀ j < batch.gStep, (batch.readWord special
      (k * batch.bStep * batch.gStep + j * batch.bStep + i) thread.blocky thread.idx).isSome)
    {acc : Nat → Nat} {writes : List Write}
    (sums : ∀ j < batch.gStep,
      acc j = batch.dot special thread.thready thread.blocky thread.idx k j i)
    {steps : Nat} (enough : steps ≤ batch.gStep) :
    (List.range steps).foldlM (batch.giantStep table special thread k i
        (batch.inputValue special (2 * (k * batch.bStep + i) + thread.thready) thread.blocky
          thread.idx)) (acc, writes) =
      some (fun j => if j < steps then
          batch.dot special thread.thready thread.blocky thread.idx k j (i + 1) else acc j,
        writes ++ if i = batch.bStep - 1 then
          (List.range steps).map (batch.writeOf special thread k) else []) := by
  induction steps with
  | zero => simp
  | succ steps ih =>
      have inGiant : steps < batch.gStep := enough
      rw [List.range_succ, List.foldlM_append, ih inGiant.le]
      have step := @giantStep_eq batch transforms table special thread k sized single loaded allowed
        half inRange i steps inBaby inGiant (readable steps inGiant)
        (fun j => if j < steps then
            batch.dot special thread.thready thread.blocky thread.idx k j (i + 1) else acc j,
          writes ++ if i = batch.bStep - 1 then
            (List.range steps).map (batch.writeOf special thread k) else []) (by
          change (if steps < steps then _ else acc steps) = _
          rw [if_neg (lt_irrefl _), sums steps inGiant])
      simp only [Option.bind_eq_bind, Option.bind_some, List.foldlM_cons, List.foldlM_nil, step]
      refine congrArg some (Prod.ext ?_ ?_)
      · funext j
        by_cases same : j = steps
        · subst same
          simp
        · have apart : j < steps + 1 ↔ j < steps := by omega
          simp only [Function.update_of_ne same, apart]
      · dsimp only
        split_ifs
        · simp [List.append_assoc]
        · simp

/-- The fold over the baby steps leaves the whole sums and one write for each giant step. -/
theorem babySteps_eq
    (readable : ∀ i < batch.bStep, ∀ j < batch.gStep, (batch.readWord special
      (k * batch.bStep * batch.gStep + j * batch.bStep + i) thread.blocky thread.idx).isSome)
    {steps : Nat} (enough : steps ≤ batch.bStep) :
    (List.range steps).foldlM (batch.babyStep table special thread k) (fun _ => 0, []) =
      some (fun j => if j < batch.gStep then
          batch.dot special thread.thready thread.blocky thread.idx k j steps else 0,
        if steps = batch.bStep then
          (List.range batch.gStep).map (batch.writeOf special thread k) else []) := by
  have positive := sized.bStep_pos
  induction steps with
  | zero =>
      have notLast : ¬0 = batch.bStep := by omega
      simp [dot_zero, notLast]
  | succ steps ih =>
      have inBaby : steps < batch.bStep := enough
      have notLast : ¬steps = batch.bStep := by omega
      rw [List.range_succ, List.foldlM_append, ih inBaby.le, if_neg notLast]
      have inner := @giantSteps_eq batch transforms table special thread k sized single loaded
        allowed half inRange steps inBaby (readable steps inBaby)
        (fun j => if j < batch.gStep then
          batch.dot special thread.thready thread.blocky thread.idx k j steps else 0) []
        (fun j inGiant => if_pos inGiant) batch.gStep (le_refl _)
      simp only [Option.bind_eq_bind, Option.bind_some, List.foldlM_cons, List.foldlM_nil, babyStep,
        read_in sized single loaded allowed half inRange inBaby,
        load_in sized single half inRange inBaby, inner, List.nil_append]
      refine congrArg some (Prod.ext ?_ ?_)
      · funext j
        by_cases inGiant : j < batch.gStep
        · simp [inGiant]
        · simp [inGiant]
      · have last : steps = batch.bStep - 1 ↔ steps + 1 = batch.bStep := by omega
        simp only [last]

end

end Batch
end Fideslib.LinearTransform
