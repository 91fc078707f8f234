/-
This file models the helpers of the transform kernels and the places that their threads work on.
-/

import Mathlib.Data.Nat.Bitwise
import Fideslib.Library.NegacyclicTransform
import Fideslib.Library.Ownership
import Fideslib.Modular.Words

namespace Fideslib.Butterflies

open Fideslib.Modular ThreadBlock
open BitReversal (reverse)

/-- The local variables of a thread are kept in registers. -/
inductive Register where
  | a
  | b
  | psi
  | psi_shoup
  | aux
  | aux2
  | aux_3
  | aux_shoup
  | root
  | root_shoup
  | fourth_root
  | fourth_root_shoup
deriving DecidableEq

abbrev Code (Thread Cell : Type) := Program Thread Register Cell Nat

/-- These entries of the constants belong to the prime of a limb. -/
structure Constants where
  p : Nat
  logN : Nat
  N : Nat
  N_shoup : Nat
  N_inv : Nat
  N_inv_shoup : Nat

/-- The constants of a prime hold the dimension of the ring and its inverse. -/
structure Constants.Right (constants : Constants) : Prop where
  dimension : constants.N = 2 ^ constants.logN
  multiplier : constants.N_shoup = shoup_precomp constants.N constants.p
  small : constants.N_inv < constants.p
  value : (constants.N_inv : ZMod constants.p) * 2 ^ constants.logN = 1
  quotient : constants.N_inv_shoup = shoup_precomp constants.N_inv constants.p
  wide : 2 ^ constants.logN < constants.p

section Intrinsics

def warpSize : Nat := 32

def clz (x : Nat) : Nat := 32 - x.size

def brev (x : Nat) : Nat := reverse 32 x

def ffs (x : Nat) : Nat := (x ^^^ (x - 1)).size

end Intrinsics

section Helpers

variable {Thread Cell : Type} (algo : ALGO) (p BD : Nat)

/-- The quotients are used and stored by one algorithm only. -/
def forShoup (code : Code Thread Cell) : Code Thread Cell := if algo = .shoup then code else []

/-- A word goes through a register. -/
def move (register : Register) (source target : Thread → Cell) : Code Thread Cell :=
  [.load register source, .store target fun r => r register]

def CT_butterfly (c d : Thread → Cell) : Code Thread Cell :=
  [.load .a c, .load .b d,
    .assign .b fun r => modmult algo (r .b) (r .psi) p (r .psi_shoup),
    .store c fun r => modadd (r .a) (r .b) p,
    .store d fun r => modsub (r .a) (r .b) p]

def GS_butterfly (c d : Thread → Cell) : Code Thread Cell :=
  [.load .a c, .load .b d,
    .store c fun r => modadd (r .a) (r .b) p,
    .assign .b fun r => modsub (r .a) (r .b) p,
    .store d fun r => modmult algo (r .b) (r .psi) p (r .psi_shoup)]

def psiid (maskPsi log_psi tid : Nat) : Nat := (tid &&& maskPsi) >>> log_psi

/-- A thread that is not in the mask skips one block for each block of its level. -/
def NTT_j1 (m tid : Nat) : Nat := ((m - 1) &&& tid) ||| (Nat.ldiff tid (m - 1) <<< 1)

def NTT_j2 (m tid : Nat) : Nat := NTT_j1 m tid + m

def INTT_j1 (m tid : Nat) : Nat :=
  ((m - 1) &&& tid) ||| Nat.ldiff (tid <<< 1) ((m - 1) <<< 1 ||| 1)

def INTT_j2 (m tid : Nat) : Nat := INTT_j1 m tid ||| m

/-- The loop ends with the half of the last level. -/
def INTT_m (m : Nat) : Nat := if 0 < m ∧ m < BD then INTT_m (m <<< 1) else m
termination_by BD - m
decreasing_by
  rw [Nat.shiftLeft_eq]
  omega

end Helpers

section Geometry

theorem clz_two_pow (k : Nat) : clz (2 ^ k) + 1 = 31 - k + 1 := by
  rw [clz, Nat.size_pow, Nat.add_comm k, ← Nat.sub_sub]

/-- Two powers of two enclose the bits between them. -/
theorem between_testBit {low high : Nat} (order : low ≤ high) (i : Nat) :
    (2 ^ high - 2 ^ low).testBit i = (decide (low ≤ i) && decide (i < high)) := by
  obtain ⟨width, rfl⟩ := Nat.exists_eq_add_of_le order
  have factor : 2 ^ (low + width) - 2 ^ low = (2 ^ width - 1) * 2 ^ low := by
    rw [pow_add, Nat.sub_mul, one_mul, Nat.mul_comm]
  rw [factor, ← Nat.shiftLeft_eq, Nat.testBit_shiftLeft, Nat.testBit_two_pow_sub_one]
  by_cases above : low ≤ i
  · have same : i - low < width ↔ i < low + width := by omega
    simp only [above, same]
  · simp only [above, decide_false, Bool.false_and]

/-- The lowest bit of a power of two is its only bit. -/
theorem ffs_two_pow (k : Nat) : ffs (2 ^ k) = k + 1 := by
  have bits : 2 ^ k ^^^ (2 ^ k - 1) = 2 ^ (k + 1) - 1 := by
    apply Nat.eq_of_testBit_eq
    intro i
    rw [Nat.testBit_xor, Nat.testBit_two_pow_sub_one, Nat.testBit_two_pow_sub_one,
      Nat.testBit_two_pow]
    by_cases here : k = i
    · subst here
      simp
    · have same : i < k + 1 ↔ i < k := by omega
      simp only [here, same, decide_false, Bool.false_xor]
  have positive := Nat.two_pow_pos k
  have double : 2 ^ (k + 1) = 2 ^ k * 2 := pow_succ 2 k
  rw [ffs, bits]
  apply le_antisymm
  · exact Nat.size_le.mpr (by omega)
  · exact Nat.lt_size.mpr (by omega)

theorem ldiff_low (x s : Nat) : Nat.ldiff x (2 ^ s - 1) = 2 ^ s * (x / 2 ^ s) := by
  apply Nat.eq_of_testBit_eq
  intro i
  rw [Nat.testBit_ldiff, Nat.testBit_two_pow_sub_one, Nat.testBit_two_pow_mul,
    Nat.testBit_div_two_pow]
  by_cases above : s ≤ i
  · have low : ¬i < s := by omega
    simp only [above, low, decide_false, decide_true, Bool.not_false, Bool.and_true, Bool.true_and,
      Nat.sub_add_cancel above]
  · have low : i < s := by omega
    simp only [above, low, decide_true, decide_false, Bool.not_true, Bool.and_false, Bool.false_and]

/-- A butterfly joins the places of one number in the two halves of a block. -/
def firstPlace (m tid : Nat) : Nat := tid / m * (2 * m) + tid % m

def secondPlace (m tid : Nat) : Nat := tid / m * (2 * m) + m + tid % m

theorem NTT_j1_eq (s : Nat) : NTT_j1 (2 ^ s) = firstPlace (2 ^ s) := by
  funext tid
  have low : tid % 2 ^ s < 2 ^ (s + 1) :=
    (Nat.mod_lt _ (Nat.two_pow_pos s)).trans_le (Nat.pow_le_pow_right two_pos (Nat.le_succ s))
  rw [NTT_j1, Nat.and_comm, Nat.and_two_pow_sub_one_eq_mod, ldiff_low, Nat.shiftLeft_eq, pow_one,
    Nat.or_comm, Nat.mul_right_comm, ← pow_succ, ← Nat.two_pow_add_eq_or_of_lt low, firstPlace,
    pow_succ', Nat.mul_comm (2 * 2 ^ s)]

theorem NTT_j2_eq (s : Nat) : NTT_j2 (2 ^ s) = secondPlace (2 ^ s) := by
  funext tid
  rw [NTT_j2, NTT_j1_eq, firstPlace, secondPlace, Nat.add_right_comm]

theorem INTT_j1_eq (s : Nat) : INTT_j1 (2 ^ s) = firstPlace (2 ^ s) := by
  funext tid
  have mask : (2 ^ s - 1) <<< 1 ||| 1 = 2 ^ (s + 1) - 1 := by
    have positive := Nat.two_pow_pos s
    rw [Nat.shiftLeft_eq, Nat.mul_comm, ← Nat.two_pow_add_eq_or_of_lt (show 1 < 2 ^ 1 by decide),
      pow_succ]
    omega
  have low : tid % 2 ^ s < 2 ^ (s + 1) :=
    (Nat.mod_lt _ (Nat.two_pow_pos s)).trans_le (Nat.pow_le_pow_right two_pos (Nat.le_succ s))
  have half : tid <<< 1 / 2 ^ (s + 1) = tid / 2 ^ s := by
    rw [Nat.shiftLeft_eq, pow_one, pow_succ, Nat.mul_div_mul_right _ _ two_pos]
  rw [INTT_j1, Nat.and_comm, Nat.and_two_pow_sub_one_eq_mod, mask, ldiff_low, half, Nat.or_comm,
    ← Nat.two_pow_add_eq_or_of_lt low, firstPlace, pow_succ', Nat.mul_comm (2 * 2 ^ s)]

theorem INTT_j2_eq (s : Nat) : INTT_j2 (2 ^ s) = secondPlace (2 ^ s) := by
  funext tid
  have low := Nat.mod_lt tid (Nat.two_pow_pos s)
  have place : firstPlace (2 ^ s) tid = 2 ^ (s + 1) * (tid / 2 ^ s) + tid % 2 ^ s := by
    rw [firstPlace, pow_succ', Nat.mul_comm (2 * 2 ^ s)]
  have double : 2 ^ (s + 1) = 2 ^ s * 2 := pow_succ 2 s
  have upper : tid % 2 ^ s ||| 2 ^ s = 2 ^ s + tid % 2 ^ s := by
    have sum := @Nat.two_pow_add_eq_or_of_lt s _ low 1
    rw [mul_one] at sum
    rw [sum, Nat.or_comm]
  rw [INTT_j2, INTT_j1_eq, place,
    Nat.two_pow_add_eq_or_of_lt (show tid % 2 ^ s < 2 ^ (s + 1) by omega), Nat.or_assoc, upper,
    ← Nat.two_pow_add_eq_or_of_lt (show 2 ^ s + tid % 2 ^ s < 2 ^ (s + 1) by omega), secondPlace,
    pow_succ', Nat.mul_comm (2 * 2 ^ s), Nat.add_assoc]

/-- A thread reads the twist of its block. -/
theorem psiid_eq {high s tid : Nat} (order : s ≤ high) (inside : tid < 2 ^ high) :
    psiid (2 ^ high - 2 ^ s) s tid = tid / 2 ^ s := by
  apply Nat.eq_of_testBit_eq
  intro i
  rw [psiid, Nat.testBit_shiftRight, Nat.testBit_and, between_testBit order,
    Nat.testBit_div_two_pow, Nat.add_comm s i]
  by_cases short : i + s < high
  · simp only [short, Nat.le_add_left, decide_true, Bool.and_true]
  · have none : tid.testBit (i + s) = false :=
      Nat.testBit_lt_two_pow (inside.trans_le (Nat.pow_le_pow_right two_pos (by omega)))
    simp only [none, Bool.false_and]

theorem NTT_mask {high s : Nat} (order : s < high) (positive : 0 < s) :
    (2 ^ high - 2 ^ s) ||| (2 ^ high - 2 ^ s) >>> 1 = 2 ^ high - 2 ^ (s - 1) := by
  apply Nat.eq_of_testBit_eq
  intro i
  rw [Nat.testBit_or, Nat.testBit_shiftRight, between_testBit order.le, between_testBit order.le,
    between_testBit (by omega), Bool.eq_iff_iff]
  simp only [Bool.or_eq_true, Bool.and_eq_true, decide_eq_true_eq]
  omega

theorem INTT_mask {high s : Nat} (order : s < high) :
    (2 ^ high - 2 ^ s) &&& (2 ^ high - 2 ^ s) <<< 1 = 2 ^ high - 2 ^ (s + 1) := by
  apply Nat.eq_of_testBit_eq
  intro i
  rw [Nat.testBit_and, Nat.testBit_shiftLeft, between_testBit order.le, between_testBit order.le,
    between_testBit (by omega), Bool.eq_iff_iff]
  simp only [Bool.and_eq_true, decide_eq_true_eq, ge_iff_le]
  omega

end Geometry

section Places

variable {k s tid i : Nat}

/-- One thread works on a word at a level of this size. -/
def owner (m i : Nat) : Nat := i / (2 * m) * m + i % m

theorem owner_first {m : Nat} (positive : 0 < m) (tid : Nat) :
    owner m (firstPlace m tid) = tid := by
  obtain ⟨-, block⟩ :=
    NegacyclicTransform.first_half positive (tid / m) (Nat.mod_lt tid positive)
  have place : firstPlace m tid % m = tid % m := by
    rw [firstPlace, Nat.add_mod, Nat.mul_left_comm, ← Nat.mul_assoc, Nat.mul_mod_left, Nat.zero_add,
      Nat.mod_mod, Nat.mod_mod]
  rw [owner, place, firstPlace, block, Nat.div_add_mod']

theorem owner_second {m : Nat} (positive : 0 < m) (tid : Nat) :
    owner m (secondPlace m tid) = tid := by
  obtain ⟨-, block⟩ := NegacyclicTransform.second_half (tid / m) (Nat.mod_lt tid positive)
  have place : secondPlace m tid % m = tid % m := by
    rw [secondPlace, Nat.add_right_comm, Nat.add_mod_right, Nat.add_mod, Nat.mul_left_comm,
      ← Nat.mul_assoc, Nat.mul_mod_left, Nat.zero_add, Nat.mod_mod, Nat.mod_mod]
  rw [owner, place, secondPlace, block, Nat.div_add_mod']

theorem second_bound (order : s ≤ k) (inside : tid < 2 ^ k) :
    secondPlace (2 ^ s) tid < 2 * 2 ^ k := by
  obtain ⟨width, rfl⟩ := Nat.exists_eq_add_of_le order
  have positive := Nat.two_pow_pos s
  have low := Nat.mod_lt tid positive
  rw [pow_add] at inside ⊢
  have block : tid / 2 ^ s + 1 ≤ 2 ^ width := Nat.div_lt_of_lt_mul inside
  have bound := Nat.mul_le_mul_left (2 * 2 ^ s) block
  rw [Nat.mul_succ, Nat.mul_comm (2 * 2 ^ s) (tid / 2 ^ s), Nat.mul_assoc] at bound
  unfold secondPlace
  omega

theorem first_bound (order : s ≤ k) (inside : tid < 2 ^ k) :
    firstPlace (2 ^ s) tid < 2 * 2 ^ k := by
  have bound := second_bound order inside
  unfold secondPlace at bound
  unfold firstPlace
  omega

theorem first_ne_second {m : Nat} (positive : 0 < m) (tid : Nat) :
    firstPlace m tid ≠ secondPlace m tid := by
  unfold firstPlace secondPlace
  omega

/-- Each word is worked on at each level. -/
theorem place_cases (order : s ≤ k) (inside : i < 2 * 2 ^ k) :
    ∃ tid < 2 ^ k, i = firstPlace (2 ^ s) tid ∨ i = secondPlace (2 ^ s) tid := by
  obtain ⟨b, j, low, place⟩ := NegacyclicTransform.half_cases (Nat.two_pow_pos s) i
  have number : (b * 2 ^ s + j) / 2 ^ s = b ∧ (b * 2 ^ s + j) % 2 ^ s = j := by
    rw [Nat.mul_comm, Nat.mul_add_mod, Nat.mod_eq_of_lt low, Nat.mul_add_div (Nat.two_pow_pos s),
      Nat.div_eq_of_lt low]
    exact ⟨rfl, rfl⟩
  refine ⟨b * 2 ^ s + j, ?_, ?_⟩
  · obtain ⟨width, rfl⟩ := Nat.exists_eq_add_of_le order
    rw [pow_add] at inside ⊢
    have block : b < 2 ^ width := by
      by_contra far
      have bound := Nat.mul_le_mul_left (2 * 2 ^ s) (not_lt.mp far)
      rw [Nat.mul_comm (2 * 2 ^ s) b, Nat.mul_assoc] at bound
      omega
    have bound := Nat.mul_le_mul_left (2 ^ s) block
    rw [Nat.mul_succ, Nat.mul_comm (2 ^ s) b] at bound
    omega
  · rw [firstPlace, secondPlace, number.1, number.2]
    exact place

/-- At narrow levels the threads of a warp share their words with no other warp. -/
theorem owner_warp (narrow : s ≤ 5) (i : Nat) : owner (2 ^ s) i / warpSize = i / 64 := by
  unfold owner warpSize
  interval_cases s <;> omega

theorem firstPlace_one (tid : Nat) : firstPlace 1 tid = tid <<< 1 := by
  rw [firstPlace, Nat.div_one, Nat.mod_one, Nat.shiftLeft_eq, Nat.add_zero, Nat.mul_one, pow_one]

theorem secondPlace_one (tid : Nat) : secondPlace 1 tid = (tid <<< 1) + 1 := by
  rw [secondPlace, Nat.div_one, Nat.mod_one, Nat.shiftLeft_eq, Nat.add_zero, Nat.mul_one]

theorem firstPlace_whole (inside : tid < 2 ^ k) : firstPlace (2 ^ k) tid = tid := by
  rw [firstPlace, Nat.div_eq_of_lt inside, Nat.mod_eq_of_lt inside, Nat.zero_mul, Nat.zero_add]

theorem secondPlace_whole (inside : tid < 2 ^ k) : secondPlace (2 ^ k) tid = tid + 2 ^ k := by
  rw [secondPlace, Nat.div_eq_of_lt inside, Nat.mod_eq_of_lt inside, Nat.zero_mul, Nat.zero_add,
    Nat.add_comm]

end Places

section Loops

variable {Thread Cell : Type} (round : Nat → Nat → Nat → Code Thread Cell) (BD k : Nat)

/-- The levels go from blocks of two halves of this size to blocks of two words. -/
def NTT_rounds (m maskPsi log_psi : Nat) : Code Thread Cell :=
  if m < 1 then []
  else round m maskPsi log_psi ++
    NTT_rounds (m >>> 1) (maskPsi ||| maskPsi >>> 1) (log_psi - 1)
termination_by m
decreasing_by
  rw [Nat.shiftRight_one]
  omega

/-- The levels go from blocks of two words to blocks of half of the limb. -/
def INTT_rounds (m maskPsi log_psi : Nat) : Code Thread Cell :=
  if 0 < m ∧ m < BD then
    round m maskPsi log_psi ++
      INTT_rounds (m <<< 1) (maskPsi &&& maskPsi <<< 1) (log_psi + 1)
  else []
termination_by BD - m
decreasing_by
  rw [Nat.shiftLeft_eq]
  omega

/-- These are the levels of the forward kernel below the first one. -/
def forwardLevels : Nat → Code Thread Cell
  | 0 => []
  | s + 1 => round (2 ^ s) (2 ^ (k + 1) - 2 ^ s) s ++ forwardLevels s

/-- These are the levels of the inverse kernel below the last one. -/
def backwardLevels : Nat → Code Thread Cell
  | 0 => []
  | s + 1 => backwardLevels s ++ round (2 ^ s) (2 ^ k - 2 ^ s) s

theorem NTT_rounds_eq {s : Nat} (order : s ≤ k) :
    NTT_rounds round (2 ^ s >>> 1)
      ((2 ^ (k + 1) - 2 ^ s) ||| (2 ^ (k + 1) - 2 ^ s) >>> 1) (s - 1) =
        forwardLevels round k s := by
  induction s with
  | zero =>
      rw [NTT_rounds, if_pos (by decide)]
      rfl
  | succ s inductionHypothesis =>
      have half : 2 ^ (s + 1) >>> 1 = 2 ^ s := by
        rw [Nat.shiftRight_one, pow_succ, Nat.mul_div_cancel _ two_pos]
      have positive := Nat.two_pow_pos s
      rw [NTT_rounds, half, if_neg (by omega), NTT_mask (by omega) (Nat.succ_pos s),
        Nat.add_sub_cancel, inductionHypothesis (by omega)]
      rfl

theorem INTT_rounds_eq {s : Nat} (order : s ≤ k) :
    backwardLevels round k s ++
      INTT_rounds round (2 ^ k) (2 ^ s) (2 ^ k - 2 ^ s) s =
        backwardLevels round k k := by
  induction left : k - s generalizing s with
  | zero =>
      obtain rfl : s = k := by omega
      rw [INTT_rounds, if_neg (fun both => lt_irrefl _ both.2), List.append_nil]
  | succ left inductionHypothesis =>
      have below : 2 ^ s < 2 ^ k := Nat.pow_lt_pow_right one_lt_two (by omega)
      have next := @inductionHypothesis (s + 1) (by omega) (by omega)
      rw [INTT_rounds, if_pos ⟨Nat.two_pow_pos s, below⟩, INTT_mask (by omega), Nat.shiftLeft_eq,
        ← pow_add, ← List.append_assoc]
      exact next

theorem INTT_m_eq {k s : Nat} (order : s ≤ k) : INTT_m (2 ^ k) (2 ^ s) = 2 ^ k := by
  induction left : k - s generalizing s with
  | zero =>
      obtain rfl : s = k := by omega
      rw [INTT_m, if_neg (fun both => lt_irrefl _ both.2)]
  | succ left inductionHypothesis =>
      have below : 2 ^ s < 2 ^ k := Nat.pow_lt_pow_right one_lt_two (by omega)
      rw [INTT_m, if_pos ⟨Nat.two_pow_pos s, below⟩, Nat.shiftLeft_eq, ← pow_add]
      exact inductionHypothesis (by omega) (by omega)

end Loops

section Effects

variable {Thread Cell : Type} [DecidableEq Thread] [DecidableEq Cell] {algo : ALGO} {p : Nat}
  {tid : Thread} (block : Machine Thread Register Cell Nat)

/-- This is the product that a thread computes with the quotient in its register. -/
theorem alone_CT {c d : Thread → Cell} (apart : c tid ≠ d tid) :
    (alone (CT_butterfly algo p c d) tid block).memory (c tid) =
        modadd (block.memory (c tid)) (modmult algo (block.memory (d tid))
          (block.registers tid .psi) p (block.registers tid .psi_shoup)) p ∧
      (alone (CT_butterfly algo p c d) tid block).memory (d tid) =
        modsub (block.memory (c tid)) (modmult algo (block.memory (d tid))
          (block.registers tid .psi) p (block.registers tid .psi_shoup)) p := by
  simp [alone, CT_butterfly, Instruction.act, Machine.setRegister, Machine.setCell,
    Function.update_of_ne apart]

theorem alone_GS {c d : Thread → Cell} (apart : c tid ≠ d tid) :
    (alone (GS_butterfly algo p c d) tid block).memory (c tid) =
        modadd (block.memory (c tid)) (block.memory (d tid)) p ∧
      (alone (GS_butterfly algo p c d) tid block).memory (d tid) =
        modmult algo (modsub (block.memory (c tid)) (block.memory (d tid)) p)
          (block.registers tid .psi) p (block.registers tid .psi_shoup) := by
  simp [alone, GS_butterfly, Instruction.act, Machine.setRegister, Machine.setCell,
    Function.update_of_ne apart]

/-- Only one algorithm reads the word. -/
theorem alone_forShoup_load (register : Register) (place : Thread → Cell) :
    (alone (forShoup algo [.load register place]) tid block).memory = block.memory ∧
      (algo = .shoup → (alone (forShoup algo [.load register place]) tid block).registers tid
        register = block.memory (place tid)) ∧
      ∀ other, other ≠ register →
        (alone (forShoup algo [.load register place]) tid block).registers tid other =
          block.registers tid other := by
  by_cases chosen : algo = .shoup
  · rw [forShoup, if_pos chosen]
    refine ⟨rfl, fun _ => ?_, fun other different => ?_⟩
    · simp [alone, Instruction.act, Machine.setRegister]
    · simp [alone, Instruction.act, Machine.setRegister, Function.update_of_ne different]
  · rw [forShoup, if_neg chosen]
    exact ⟨rfl, fun same => absurd same chosen, fun _ _ => rfl⟩

theorem alone_move (register : Register) (source target : Thread → Cell) :
    (alone (move register source target) tid block).memory =
      Function.update block.memory (target tid) (block.memory (source tid)) := by
  simp [alone, move, Instruction.act, Machine.setRegister, Machine.setCell]

end Effects

section Products

variable {algo : ALGO} {p : Nat}

/-- Only the algorithm that uses a quotient needs it. -/
theorem modmult_right (modulus : Modulus p) {a b quotient : Nat} (left : a < p) (right : b < p)
    (prepared : algo = .shoup → quotient = shoup_precomp b p) :
    modmult algo a b p quotient < p ∧ (modmult algo a b p quotient : ZMod p) = a * b := by
  have same : modmult algo a b p quotient = modmult algo a b p (shoup_precomp b p) := by
    cases algo with
    | native => simp only [modmult]
    | shoup => rw [prepared rfl]
    | barrett => simp only [modmult]
  rw [same]
  exact ⟨modmult_lt modulus algo left right, modmult_cast modulus algo left right⟩

end Products

section Residues

open NegacyclicTransform

variable {algo : ALGO} {p k s count : Nat} {words after roots quotients : Nat → Nat}
  {y z h : Nat → ZMod p}

/-- These words are canonical, and they hold these residues. -/
structure Residues (p count : Nat) (words : Nat → Nat) (y : Nat → ZMod p) : Prop where
  small : ∀ i < count, words i < p
  value : ∀ i < count, (words i : ZMod p) = y i

/-- These words are twists, and their quotients fit them where the algorithm uses them. -/
structure Twisted (algo : ALGO) (p count : Nat) (roots quotients : Nat → Nat)
    (h : Nat → ZMod p) : Prop extends Residues p count roots h where
  quotient : algo = .shoup → ∀ i < count, quotients i = shoup_precomp (roots i) p

theorem Residues.congr (residues : Residues p count words y) (same : ∀ i < count, y i = z i) :
    Residues p count words z where
  small := residues.small
  value := fun i inside => (residues.value i inside).trans (same i inside)

/-- Other words that agree hold the same residues. -/
theorem Residues.of_same (residues : Residues p count words y)
    (same : ∀ i < count, after i = words i) : Residues p count after y where
  small := fun i inside => by
    rw [same i inside]
    exact residues.small i inside
  value := fun i inside => by
    rw [same i inside]
    exact residues.value i inside

/-- All words are right when each thread leaves its two words right. -/
theorem Residues.of_places (order : s ≤ k)
    (each : ∀ tid < 2 ^ k,
      (words (firstPlace (2 ^ s) tid) < p ∧
        (words (firstPlace (2 ^ s) tid) : ZMod p) = y (firstPlace (2 ^ s) tid)) ∧
      (words (secondPlace (2 ^ s) tid) < p ∧
        (words (secondPlace (2 ^ s) tid) : ZMod p) = y (secondPlace (2 ^ s) tid))) :
    Residues p (2 * 2 ^ k) words y := by
  have both (i : Nat) (inside : i < 2 * 2 ^ k) : words i < p ∧ (words i : ZMod p) = y i := by
    obtain ⟨tid, bound, rfl | rfl⟩ := place_cases order inside
    · exact (each tid bound).1
    · exact (each tid bound).2
  exact ⟨fun i inside => (both i inside).1, fun i inside => (both i inside).2⟩

/-- The butterflies of all threads are a level of the transform. -/
theorem Residues.ct_level (modulus : Modulus p) (order : s ≤ k)
    (residues : Residues p (2 * 2 ^ k) words y) (twists : Twisted algo p (2 ^ k) roots quotients h)
    (each : ∀ tid < 2 ^ k, ∃ quotient, (algo = .shoup → quotient = quotients (tid / 2 ^ s)) ∧
      after (firstPlace (2 ^ s) tid) = modadd (words (firstPlace (2 ^ s) tid))
        (modmult algo (words (secondPlace (2 ^ s) tid)) (roots (tid / 2 ^ s)) p quotient) p ∧
      after (secondPlace (2 ^ s) tid) = modsub (words (firstPlace (2 ^ s) tid))
        (modmult algo (words (secondPlace (2 ^ s) tid)) (roots (tid / 2 ^ s)) p quotient) p) :
    Residues p (2 * 2 ^ k) after (ctLevel h (2 ^ s) y) := by
  apply Residues.of_places order
  intro tid inside
  obtain ⟨quotient, prepared, first, second⟩ := each tid inside
  have number : tid / 2 ^ s < 2 ^ k := (Nat.div_le_self _ _).trans_lt inside
  have low := Nat.mod_lt tid (Nat.two_pow_pos s)
  have left := residues.small _ (first_bound order inside)
  have right := residues.small _ (second_bound order inside)
  obtain ⟨productSmall, product⟩ := modmult_right modulus right (twists.small _ number)
    fun chosen => (prepared chosen).trans (twists.quotient chosen _ number)
  rw [residues.value _ (second_bound order inside), twists.value _ number] at product
  rw [first, second]
  refine ⟨⟨modadd_lt modulus left productSmall, ?_⟩, modsub_lt modulus left productSmall, ?_⟩
  · rw [modadd_cast modulus left productSmall, product, residues.value _ (first_bound order inside),
      mul_comm]
    exact (ctLevel_first h y _ (Nat.two_pow_pos s) low).symm
  · rw [modsub_cast modulus left productSmall, product, residues.value _ (first_bound order inside),
      mul_comm]
    exact (ctLevel_second h y _ low).symm

/-- The inverse butterflies of all threads are a level of the inverse transform. -/
theorem Residues.gs_level (modulus : Modulus p) (order : s ≤ k)
    (residues : Residues p (2 * 2 ^ k) words y) (twists : Twisted algo p (2 ^ k) roots quotients h)
    (each : ∀ tid < 2 ^ k, ∃ quotient, (algo = .shoup → quotient = quotients (tid / 2 ^ s)) ∧
      after (firstPlace (2 ^ s) tid) =
        modadd (words (firstPlace (2 ^ s) tid)) (words (secondPlace (2 ^ s) tid)) p ∧
      after (secondPlace (2 ^ s) tid) = modmult algo
        (modsub (words (firstPlace (2 ^ s) tid)) (words (secondPlace (2 ^ s) tid)) p)
          (roots (tid / 2 ^ s)) p quotient) :
    Residues p (2 * 2 ^ k) after (gsLevel h (2 ^ s) y) := by
  apply Residues.of_places order
  intro tid inside
  obtain ⟨quotient, prepared, first, second⟩ := each tid inside
  have number : tid / 2 ^ s < 2 ^ k := (Nat.div_le_self _ _).trans_lt inside
  have low := Nat.mod_lt tid (Nat.two_pow_pos s)
  have left := residues.small _ (first_bound order inside)
  have right := residues.small _ (second_bound order inside)
  have differenceSmall := modsub_lt modulus left right
  obtain ⟨productSmall, product⟩ := modmult_right modulus differenceSmall (twists.small _ number)
    fun chosen => (prepared chosen).trans (twists.quotient chosen _ number)
  rw [modsub_cast modulus left right, residues.value _ (first_bound order inside),
    residues.value _ (second_bound order inside), twists.value _ number] at product
  rw [first, second]
  refine ⟨⟨modadd_lt modulus left right, ?_⟩, productSmall, ?_⟩
  · rw [modadd_cast modulus left right, residues.value _ (first_bound order inside),
      residues.value _ (second_bound order inside)]
    exact (gsLevel_first h y _ (Nat.two_pow_pos s) low).symm
  · rw [product]
    exact (gsLevel_second h y _ low).symm

/-- Sums and differences of the two halves are a level without a twist. -/
theorem Residues.half_level (modulus : Modulus p) (residues : Residues p (2 * 2 ^ k) words y)
    (each : ∀ tid < 2 ^ k, after tid = modadd (words tid) (words (tid + 2 ^ k)) p ∧
      after (tid + 2 ^ k) = modsub (words tid) (words (tid + 2 ^ k)) p) :
    Residues p (2 * 2 ^ k) after (ctLevel (fun _ => 1) (2 ^ k) y) := by
  apply Residues.of_places (le_refl k)
  intro tid inside
  obtain ⟨sum, difference⟩ := each tid inside
  have first := ctLevel_first (fun _ => 1) y 0 (Nat.two_pow_pos k) inside
  have second := ctLevel_second (fun _ => 1) y 0 inside
  rw [Nat.zero_mul, Nat.zero_add, Nat.zero_add, one_mul, Nat.add_comm] at first second
  have left := residues.small tid (by omega)
  have right := residues.small (tid + 2 ^ k) (by omega)
  rw [firstPlace_whole inside, secondPlace_whole inside, sum, difference, first, second,
    ← residues.value tid (by omega), ← residues.value (tid + 2 ^ k) (by omega)]
  exact ⟨⟨modadd_lt modulus left right, modadd_cast modulus left right⟩,
    modsub_lt modulus left right, modsub_cast modulus left right⟩

end Residues

section Owned

variable {Thread Cell : Type} {algo : ALGO} {p : Nat} {team : List Thread}
  {own fixed : Thread → Cell → Prop}

theorem owned_forShoup {code : Code Thread Cell}
    (owned : algo = .shoup → Owned team own fixed code) :
    Owned team own fixed (forShoup algo code) := by
  unfold Butterflies.forShoup
  split
  · next chosen => exact owned chosen
  · exact .nil

section Butterfly

variable {c d : Thread → Cell} (first : ∀ tid ∈ team, own tid (c tid))
  (second : ∀ tid ∈ team, own tid (d tid))

include first second

/-- A thread that owns both words of a butterfly needs no other word. -/
theorem owned_CT : Owned team own fixed (CT_butterfly algo p c d) :=
  .load _ (fun tid listed => .inl (first tid listed))
    (.load _ (fun tid listed => .inl (second tid listed)) (.assign _ _
      (.store _ first (.store _ second .nil))))

theorem owned_GS : Owned team own fixed (GS_butterfly algo p c d) :=
  .load _ (fun tid listed => .inl (first tid listed))
    (.load _ (fun tid listed => .inl (second tid listed)) (.store _ first
      (.assign _ _ (.store _ second .nil))))

end Butterfly

end Owned

end Fideslib.Butterflies
