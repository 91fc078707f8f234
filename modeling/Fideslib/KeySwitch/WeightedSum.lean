/-
This file translates the batched weighted sums and proves that their groups hold each output once.
-/

import Fideslib.KeySwitch.ModUp
import Fideslib.KeySwitch.Monomial
import Fideslib.Library.PartialLists
import Mathlib.Data.List.DropRight

namespace Fideslib.KeySwitch

open Fideslib.Modular
open BitReversal
open Scatter

/-- The context encodes a weight or a bias with one word for each limb of a level. -/
structure Encoding (raw : RawParams) (R : Type) where
  zero : R
  abs : R → R
  negative : R → Bool
  positive : R → Bool
  IsNotEqualZero : R → Bool
  IsNotEqualZeroComplex : R × R → Bool
  ElemForEvalMult : Nat → R → Nat → List Nat
  ElemForEvalAddOrSub : Nat → R → List Nat
  zero_skipped : IsNotEqualZero zero = false
  zeros_skipped : IsNotEqualZeroComplex (zero, zero) = false
  mult_length : ∀ level w level_in, (ElemForEvalMult level w level_in).length = level + 1
  add_length : ∀ level bias, (ElemForEvalAddOrSub level bias).length = level + 1
  mult_lt : ∀ level w level_in id factor, id < raw.L →
    (ElemForEvalMult level w level_in)[id]? = some factor → factor < raw.prime id
  add_lt : ∀ level bias id word, id < raw.L →
    (ElemForEvalAddOrSub level bias)[id]? = some word → word < raw.prime id

/-- The number of terms does not count the bias in front of the weights. -/
structure Objective (S : Type) where
  n : Nat
  target_level : Nat
  weights : List S
  ctxt : Nat

section Plan

variable {S : Type}

/-- The outputs stand one behind the other, so their addresses order them. -/
def Objective.before (lhs rhs : Objective S) : Bool :=
  lhs.n < rhs.n || (lhs.n = rhs.n && lhs.ctxt ≤ rhs.ctxt)

/-- A row that cannot be trimmed ends the program. -/
def objectives (trim : List S → Option (List S)) (weights : List (List S))
    (target_level : List Nat) : Option (List (Objective S)) :=
  (List.range weights.length).mapM fun i => (trim (weights.getD i [])).map fun weights_trimmed =>
    { n := weights_trimmed.length - 1
      target_level := target_level.getD i 0
      weights := weights_trimmed
      ctxt := i }

def MAX_OUTPUTS : Nat := 8

/-- The groups are taken from the back; a division by no groups would end the program. -/
def takeGroups : Nat → List (Objective S) → Option (List (List (Objective S)))
  | _, [] => some []
  | 0, _ :: _ => none
  | groups + 1, first :: rest =>
      let out_ctxt := first :: rest
      let group_size := (out_ctxt.length + (groups + 1) - 1) / (groups + 1)
      (takeGroups groups (out_ctxt.take (out_ctxt.length - group_size))).map
        ((out_ctxt.reverse.take group_size) :: ·)

/-- The objectives are sorted by their numbers of terms and cut into groups of equal sizes. -/
def outputGroups (trim : List S → Option (List S)) (weights : List (List S))
    (target_level : List Nat) : Option (List (List (Objective S))) :=
  (objectives trim weights target_level).bind fun out_ctxt =>
    takeGroups ((weights.length + MAX_OUTPUTS - 1) / MAX_OUTPUTS)
      (out_ctxt.mergeSort Objective.before)

/-- A launch has room for the objective with the most terms. -/
def max_n (group : List (Objective S)) : Nat := (group.map Objective.n).foldl max 0

/-- A launch has a row of blocks for each limb of the highest output. -/
def limbsize (group : List (Objective S)) : Nat :=
  (group.map fun objective => objective.target_level + 1).foldl max 0

end Plan

/-- The buffer of the factors has one row for each prime that a context may have. -/
def padded (aux : List Nat) : List Nat := aux ++ List.replicate (MAXP - aux.length) 0

def bufferWord (buffer : List Nat) (place : Nat) : Nat := buffer.getD place 0

/-- This is a word of one component of an input. -/
def inputWord (ctxs : List Ciphertext) (isC1 : Bool) (i y idx : Nat) : Nat :=
  match ctxs[i]? with
  | some ctxt => (if isC1 then ctxt.c1 else ctxt.c0).limb y idx
  | none => 0

def inputLevel (ctxs : List Ciphertext) (i : Nat) : Nat :=
  match ctxs[i]? with
  | some ctxt => ctxt.c0.level
  | none => 0

namespace Constants

variable (cc : Constants)

def psi_no (id : Nat) : Nat → Nat
  | 0 => 1
  | j + 1 => cc.root id * psi_no id j % cc.primes id

def psi (id j : Nat) : Nat := cc.psi_no id (reverse cc.logN j)

end Constants

section Kernels

variable (cc : Constants)

/-- The factors of an objective stand in one row of terms with the bias behind them. -/
def eval_batched_linear_w_sum_with_bias_ (n : Nat) (bs : Nat → Nat → Limb) (w : Nat → Nat)
    (isC1 : Bool) (j y idx : Nat) : Nat :=
  let p := cc.primes y
  let res := (List.range n).foldl (fun res i =>
    let weight := w (j * (n + 1) * MAXP + i * MAXP + y)
    if weight ≠ 0 then modadd res (modmult .barrett (bs i y idx) weight p 0) p else res) 0
  let weight := w (j * (n + 1) * MAXP + n * MAXP + y)
  let result := if isC1 = false ∧ weight ≠ 0 then modadd res weight p else res
  modreduce result p

/-- A thread block forms the two values of each constant in its shared memory. -/
def Fsh (w : Nat → Nat) (y pair half : Nat) : Nat :=
  let p := cc.primes y
  let c0 := w (2 * pair * MAXP + y)
  let c1 := w ((2 * pair + 1) * MAXP + y)
  let sc := modmult .barrett (cc.psi y 1) c1 p 0
  if half = 0 then modadd c0 sc p else modsub c0 sc p

/-- The two halves of the words take the two values of a constant. -/
def eval_batched_linear_w_sum_complex_with_bias_ (n : Nat) (bs : Nat → Nat → Limb) (w : Nat → Nat)
    (isC1 : Bool) (j y idx : Nat) : Nat :=
  let p := cc.primes y
  let half := bidx cc 2 idx
  let res := (List.range n).foldl (fun res i =>
    modadd res (modmult .barrett (bs i y idx) (Fsh cc w y (j * (n + 1) + i) half) p 0) p) 0
  let result := if isC1 = false then modadd res (Fsh cc w y (j * (n + 1) + n) half) p else res
  modreduce result p

/-- Each thread writes the limbs that the output has. -/
def RNSPoly.written (self : RNSPoly) (limbsize : Nat) (value : Nat → Limb) : RNSPoly :=
  { self with
    limb := onLimbs (min limbsize (self.level + 1)) (fun y =>
      launch (threads cc) (value y) (self.limb y)) self.limb }

/-- One launch for each component writes an output of a group. -/
def Ciphertext.written (self : Ciphertext) (limbsize : Nat) (value : Bool → Nat → Limb) :
    Ciphertext :=
  { c0 := self.c0.written cc limbsize (value false)
    c1 := self.c1.written cc limbsize (value true) }

end Kernels

def Ciphertext.growToLevel (self : Ciphertext) (level : Nat) : Ciphertext :=
  { c0 := { self.c0 with level := level }
    c1 := { self.c1 with level := level } }

namespace Encoding

variable {raw : RawParams} {R : Type} (enc : Encoding raw R) (cc : Constants)
  (ctxs : List Ciphertext)

section Real

/-- The loop over the last entries has no end before a row of zeros is used up. -/
def trim (weights : List R) : Option (List R) :=
  let weights_trimmed := weights.rdropWhile fun weight => !enc.IsNotEqualZero weight
  if weights_trimmed.isEmpty then none else some weights_trimmed

def termRow (objective : Objective R) (i : Nat) : List Nat :=
  match objective.weights[i]? with
  | some weight =>
      if enc.IsNotEqualZero weight then
        enc.ElemForEvalMult objective.target_level weight (inputLevel ctxs (i - 1))
      else []
  | none => []

/-- A negative bias is negated limb by limb. -/
def biasRow (objective : Objective R) : List Nat :=
  let bias := objective.weights.getD 0 enc.zero
  if enc.IsNotEqualZero bias then
    let aux := enc.ElemForEvalAddOrSub objective.target_level (enc.abs bias)
    if enc.negative bias then aux.mapIdx fun i word => raw.prime i - word else aux
  else []

def elem (group : List (Objective R)) : List Nat :=
  group.flatMap fun objective => (List.range (max_n group + 1)).flatMap fun i =>
    padded (if i < max_n group then enc.termRow ctxs objective (i + 1) else enc.biasRow objective)

/-- The outputs of a group share the launches. -/
def evalMultiplePartialLinearWSumWithBiasInternal (group : List (Objective R)) :
    List (Nat × (Ciphertext → Ciphertext)) :=
  group.zipIdx.map fun (objective, j) => (objective.ctxt, fun ctxt =>
    ctxt.written cc (limbsize group) fun isC1 y idx =>
      eval_batched_linear_w_sum_with_bias_ cc (max_n group) (inputWord ctxs isC1)
        (bufferWord (enc.elem ctxs group)) isC1 j y idx)

end Real

section Complex

/-- A row of zeros keeps a bias of zero. -/
def trimComplex (weights : List (R × R)) : Option (List (R × R)) :=
  let weights_trimmed := weights.rdropWhile fun weight => !enc.IsNotEqualZeroComplex weight
  some (if weights_trimmed.isEmpty then [(enc.zero, enc.zero)] else weights_trimmed)

def termRows (objective : Objective (R × R)) (i : Nat) : List Nat × List Nat :=
  match objective.weights[i]? with
  | some weight =>
      if enc.IsNotEqualZeroComplex weight then
        (enc.ElemForEvalMult objective.target_level weight.1 (inputLevel ctxs (i - 1)),
          enc.ElemForEvalMult objective.target_level weight.2 (inputLevel ctxs (i - 1)))
      else ([], [])
  | none => ([], [])

/-- A part that is not positive is negated limb by limb. -/
def signedRow (target_level : Nat) (part : R) : List Nat :=
  let vals := enc.ElemForEvalAddOrSub target_level (enc.abs part)
  if enc.positive part then vals else vals.mapIdx fun i word => raw.prime i - word

def biasRows (objective : Objective (R × R)) : List Nat × List Nat :=
  let bias := objective.weights.getD 0 (enc.zero, enc.zero)
  if enc.IsNotEqualZeroComplex bias then
    (enc.signedRow objective.target_level bias.1, enc.signedRow objective.target_level bias.2)
  else ([], [])

def pairs (group : List (Objective (R × R))) : List (List Nat × List Nat) :=
  group.flatMap fun objective => (List.range (max_n group + 1)).map fun i =>
    if i < max_n group then enc.termRows ctxs objective (i + 1) else enc.biasRows objective

def w (group : List (Objective (R × R))) : List Nat :=
  (enc.pairs ctxs group).flatMap fun rows => padded rows.1 ++ padded rows.2

def evalMultiplePartialLinearWSumComplexWithBiasInternal (group : List (Objective (R × R))) :
    List (Nat × (Ciphertext → Ciphertext)) :=
  group.zipIdx.map fun (objective, j) => (objective.ctxt, fun ctxt =>
    ctxt.written cc (limbsize group) fun isC1 y idx =>
      eval_batched_linear_w_sum_complex_with_bias_ cc (max_n group) (inputWord ctxs isC1)
        (bufferWord (enc.w ctxs group)) isC1 j y idx)

end Complex

end Encoding

/-- The groups are evaluated one after the other, and all outputs are rescaled on request. -/
def evalGroups {S : Type} (internal : List (Objective S) → List (Nat × (Ciphertext → Ciphertext)))
    (groups : Option (List (List (Objective S)))) (target_level : List Nat)
    (emplaced : Nat → Ciphertext) (rescaleInternal : Ciphertext → Ciphertext) (rescale : Bool) :
    Option (List Ciphertext) :=
  groups.map fun groups =>
    let ctxs_result := groups.foldl (fun ctxs_result group => modify (internal group) ctxs_result)
      fun i => (emplaced i).growToLevel (target_level.getD i 0)
    (List.range target_level.length).map fun i =>
      if rescale then rescaleInternal (ctxs_result i) else ctxs_result i

namespace Encoding

variable {raw : RawParams} {R : Type} (enc : Encoding raw R) (cc : Constants)
  (ctxs : List Ciphertext)

def evalMultiplePartialLinearWSumWithBias (weights : List (List R)) (target_level : List Nat) :
    (Nat → Ciphertext) → (Ciphertext → Ciphertext) → Bool → Option (List Ciphertext) :=
  evalGroups (enc.evalMultiplePartialLinearWSumWithBiasInternal cc ctxs)
    (outputGroups enc.trim weights target_level) target_level

def evalMultiplePartialLinearWSumWithBiasComplex (weights : List (List (R × R)))
    (target_level : List Nat) :
    (Nat → Ciphertext) → (Ciphertext → Ciphertext) → Bool → Option (List Ciphertext) :=
  evalGroups (enc.evalMultiplePartialLinearWSumComplexWithBiasInternal cc ctxs)
    (outputGroups enc.trimComplex weights target_level) target_level

end Encoding

end Fideslib.KeySwitch

namespace Fideslib.KeySwitch

open Scatter
open PartialLists

section Groups

variable {S : Type}

/-- A group takes its share, so the others still fit into the groups that are left. -/
theorem share_bounds {count groups : Nat} (some_ : 0 < count) (fits : count ≤ 8 * (groups + 1)) :
    0 < (count + (groups + 1) - 1) / (groups + 1) ∧ (count + (groups + 1) - 1) / (groups + 1) ≤ 8 ∧
      (count + (groups + 1) - 1) / (groups + 1) ≤ count ∧
      count - (count + (groups + 1) - 1) / (groups + 1) ≤ 8 * groups := by
  have positive : 0 < groups + 1 := Nat.succ_pos groups
  have quotient := Nat.div_add_mod (count + (groups + 1) - 1) (groups + 1)
  have rest := Nat.mod_lt (count + (groups + 1) - 1) positive
  have low : 0 < (count + (groups + 1) - 1) / (groups + 1) := Nat.div_pos (by omega) positive
  have high : (count + (groups + 1) - 1) / (groups + 1) ≤ 8 := by
    apply Nat.le_of_lt_succ
    apply Nat.div_lt_of_lt_mul
    omega
  generalize (count + (groups + 1) - 1) / (groups + 1) = share at *
  have spread : groups * share ≤ groups * 8 := Nat.mul_le_mul_left groups high
  have within : groups ≤ groups * share := Nat.le_mul_of_pos_right groups low
  rw [Nat.add_mul, Nat.one_mul] at quotient
  exact ⟨low, high, by omega, by omega⟩

/-- The loop over the groups ends, and its groups are the objectives in some order. -/
theorem takeGroups_perm {groups : Nat} {out_ctxt : List (Objective S)}
    (fits : out_ctxt.length ≤ 8 * groups) :
    ∃ taken, takeGroups groups out_ctxt = some taken ∧ taken.flatten.Perm out_ctxt ∧
      ∀ group ∈ taken, 0 < group.length ∧ group.length ≤ MAX_OUTPUTS := by
  induction groups generalizing out_ctxt with
  | zero =>
      have none_ := List.eq_nil_of_length_eq_zero (Nat.le_zero.mp fits)
      subst none_
      exact ⟨[], rfl, List.Perm.refl _, fun group mem => absurd mem List.not_mem_nil⟩
  | succ groups inductionHypothesis =>
      cases out_ctxt with
      | nil => exact ⟨[], rfl, List.Perm.refl _, fun group mem => absurd mem List.not_mem_nil⟩
      | cons first rest =>
          obtain ⟨low, high, within, left⟩ :=
            share_bounds (Nat.succ_pos rest.length) (fits : rest.length + 1 ≤ 8 * (groups + 1))
          set share := (rest.length + 1 + (groups + 1) - 1) / (groups + 1) with share_def
          have short : ((first :: rest).take (rest.length + 1 - share)).length ≤ 8 * groups := by
            rw [List.length_take]
            omega
          obtain ⟨taken, ran, perm, sizes⟩ := inductionHypothesis short
          refine ⟨((first :: rest).reverse.take share) :: taken, ?_, ?_, ?_⟩
          · change (takeGroups groups ((first :: rest).take (rest.length + 1 - share))).map _ = _
            rw [ran]
            rfl
          · have back : ((first :: rest).reverse.take share).Perm
                ((first :: rest).drop (rest.length + 1 - share)) := by
              rw [List.take_reverse]
              exact List.reverse_perm _
            have whole := (back.append perm).trans List.perm_append_comm
            rwa [List.take_append_drop, ← List.flatten_cons] at whole
          · intro group mem
            rcases List.mem_cons.mp mem with rfl | later
            · rw [List.length_take, List.length_reverse, List.length_cons]
              exact ⟨by omega, by rw [MAX_OUTPUTS]; omega⟩
            · exact sizes group later

variable {trim : List S → Option (List S)} {weights : List (List S)} {target_level : List Nat}

/-- The objectives belong to the rows in their order. -/
theorem objectives_ctxt {out_ctxt : List (Objective S)}
    (ran : objectives trim weights target_level = some out_ctxt) :
    out_ctxt.map Objective.ctxt = List.range weights.length := by
  have numbered : ∀ i objective, (trim (weights.getD i [])).map (fun weights_trimmed =>
      ({ n := weights_trimmed.length - 1
         target_level := target_level.getD i 0
         weights := weights_trimmed
         ctxt := i } : Objective S)) = some objective → objective.ctxt = id i := by
    intro i objective made
    obtain ⟨kept, trimmed, rfl⟩ := Option.map_eq_some_iff.mp made
    rfl
  rw [mapM_map numbered ran, List.map_id]

/-- An objective holds the trimmed row of its output. -/
theorem mem_objectives {out_ctxt : List (Objective S)}
    (ran : objectives trim weights target_level = some out_ctxt) {objective : Objective S}
    (mem : objective ∈ out_ctxt) :
    objective.ctxt < weights.length ∧
      trim (weights.getD objective.ctxt []) = some objective.weights ∧
      objective.target_level = target_level.getD objective.ctxt 0 ∧
      objective.n = objective.weights.length - 1 := by
  obtain ⟨i, inside, made⟩ := (mem_mapM ran).mp mem
  obtain ⟨kept, trimmed, rfl⟩ := Option.map_eq_some_iff.mp made
  exact ⟨List.mem_range.mp inside, trimmed, rfl, rfl⟩

/-- The groups of a call hold each output once and never more than their bound. -/
structure Planned (trim : List S → Option (List S)) (weights : List (List S))
    (target_level : List Nat) (groups : List (List (Objective S))) : Prop where
  once : (groups.flatten.map Objective.ctxt).Perm (List.range weights.length)
  sizes : ∀ group ∈ groups, 0 < group.length ∧ group.length ≤ MAX_OUTPUTS
  row : ∀ objective ∈ groups.flatten, objective.ctxt < weights.length ∧
    trim (weights.getD objective.ctxt []) = some objective.weights ∧
    objective.target_level = target_level.getD objective.ctxt 0 ∧
    objective.n = objective.weights.length - 1

theorem outputGroups_planned {out_ctxt : List (Objective S)}
    (ran : objectives trim weights target_level = some out_ctxt) :
    ∃ groups, outputGroups trim weights target_level = some groups ∧
      Planned trim weights target_level groups := by
  have ctxts := objectives_ctxt ran
  have length := congrArg List.length ctxts
  rw [List.length_map, List.length_range] at length
  have sorted := List.mergeSort_perm out_ctxt Objective.before
  have fits : (out_ctxt.mergeSort Objective.before).length ≤
      8 * ((weights.length + MAX_OUTPUTS - 1) / MAX_OUTPUTS) := by
    rw [sorted.length_eq, length, MAX_OUTPUTS]
    omega
  obtain ⟨groups, taken, perm, sizes⟩ := takeGroups_perm fits
  have whole := perm.trans sorted
  refine ⟨groups, ?_, ?_, sizes, ?_⟩
  · rw [outputGroups, ran]
    exact taken
  · rw [← ctxts]
    exact whole.map _
  · intro objective mem
    exact mem_objectives ran (whole.mem_iff.mp mem)

/-- A row that cannot be trimmed leaves no objectives. -/
theorem objectives_none {i : Nat} (inside : i < weights.length)
    (fails : trim (weights.getD i []) = none) : objectives trim weights target_level = none := by
  apply mapM_eq_none (List.mem_range.mpr inside)
  rw [fails]
  rfl

theorem objectives_some (trims : ∀ row ∈ weights, (trim row).isSome) :
    ∃ out_ctxt, objectives trim weights target_level = some out_ctxt := by
  apply mapM_succeeds
  intro i mem
  have inside := List.mem_range.mp mem
  have row : weights.getD i [] ∈ weights := by
    rw [List.getD_eq_getElem?_getD, List.getElem?_eq_getElem inside]
    exact List.getElem_mem inside
  obtain ⟨kept, trimmed⟩ := Option.isSome_iff_exists.mp (trims _ row)
  rw [trimmed]
  rfl

/-- Each output is what its one launch makes of the fresh ciphertext. -/
theorem evalGroups_result {internal : List (Objective S) → List (Nat × (Ciphertext → Ciphertext))}
    {value : List (Objective S) → Nat → Ciphertext → Ciphertext}
    (shape : ∀ group, internal group =
      group.zipIdx.map fun (objective, j) => (objective.ctxt, value group j))
    {groups : List (List (Objective S))} (planned : Planned trim weights target_level groups)
    (initial : Nat → Ciphertext) {i : Nat} (inside : i < weights.length) :
    ∃ group ∈ groups, ∃ j objective, group[j]? = some objective ∧ objective.ctxt = i ∧
      groups.foldl (fun ctxs_result group => modify (internal group) ctxs_result) initial i =
        value group j (initial i) := by
  have keys : (groups.flatMap internal).map Prod.fst = groups.flatten.map Objective.ctxt := by
    rw [List.map_flatMap, List.map_flatten, List.flatMap_def]
    congr 1
    apply List.map_congr_left
    intro group mem
    have ctxts : (group.zipIdx.map Prod.fst).map Objective.ctxt =
        group.zipIdx.map (Objective.ctxt ∘ Prod.fst) := List.map_map
    rw [List.zipIdx_map_fst] at ctxts
    rw [shape, List.map_map, ctxts]
    rfl
  have distinct : ((groups.flatMap internal).map Prod.fst).Nodup := by
    rw [keys, planned.once.nodup_iff]
    exact List.nodup_range
  have found : i ∈ groups.flatten.map Objective.ctxt :=
    planned.once.mem_iff.mpr (List.mem_range.mpr inside)
  obtain ⟨objective, mem, rfl⟩ := List.mem_map.mp found
  obtain ⟨group, taken, member⟩ := List.mem_flatten.mp mem
  obtain ⟨j, place⟩ := List.mem_iff_getElem?.mp member
  have write : (objective.ctxt, value group j) ∈ groups.flatMap internal := by
    refine List.mem_flatMap.mpr ⟨group, taken, ?_⟩
    rw [shape]
    exact List.mem_map.mpr ⟨(objective, j), List.mem_zipIdx_iff_getElem?.mpr place, rfl⟩
  refine ⟨group, taken, j, objective, place, rfl, ?_⟩
  rw [modify_flatMap]
  exact modify_once distinct write initial

end Groups

end Fideslib.KeySwitch
