/-
This file models the kernels that transform a whole limb in one block of threads.
-/

import Fideslib.Kernels.Butterflies
import Fideslib.Twiddles.Tables

namespace Fideslib.OnePass

open Fideslib.Modular ThreadBlock Butterflies
open BitReversal (reverse)
open Twiddles (Table)

/-- A block reaches its shared words, the limbs and the tables of its prime. -/
inductive Cell where
  | shared (i : Nat)
  | limb (buffer i : Nat)
  | table (table : Table) (i : Nat)
deriving DecidableEq

abbrev Block := Machine Nat Register Cell Nat

section Intrinsics

/-- All threads of the block wait for each other. -/
def syncthreads : Instruction Nat Register Cell Nat := .barrier fun _ _ => True

/-- The threads of a warp wait for each other. -/
def syncwarp : Instruction Nat Register Cell Nat :=
  .barrier fun tid other => tid / warpSize = other / warpSize

end Intrinsics

section Parts

variable (algo : ALGO) (p BD : Nat)

/-- The roots lie behind the words of the limb. -/
def psi (i : Nat) : Cell := .shared (2 * BD + i)

def psi_shoup (i : Nat) : Cell := .shared (BD * (2 + if algo = .shoup then 1 else 0) + i)

/-- Each thread brings one entry of the table to the shared words. -/
def load_psi (table table_shoup : Table) : Code Nat Cell :=
  move .psi (fun tid => .table table tid) (psi BD) ++
    forShoup algo (move .psi_shoup (fun tid => .table table_shoup tid) (psi_shoup algo BD))

/-- A thread moves two neighbours at once. -/
def copy (source target : Nat → Cell) : Code Nat Cell :=
  [.load .a fun tid => source (tid <<< 1), .load .b fun tid => source ((tid <<< 1) + 1),
    .store (fun tid => target (tid <<< 1)) fun r => r .a,
    .store (fun tid => target ((tid <<< 1) + 1)) fun r => r .b]

/-- A thread finds the power of the root for its two words at the reversed index. -/
def pos1 (tid : Nat) : Nat := brev tid >>> (clz BD + 1)

/-- One level without a twist adds and subtracts the two halves. -/
def halves (m : Nat) : Code Nat Cell :=
  [.load .a fun tid => .shared tid, .load .b fun tid => .shared (tid + m),
    .store (fun tid => .shared tid) fun r => modadd (r .a) (r .b) p,
    .store (fun tid => .shared (tid + m)) fun r => modsub (r .a) (r .b) p]

/-- The butterflies of wide levels need the whole block, those of narrow levels their warp. -/
def sync (m : Nat) : Instruction Nat Register Cell Nat :=
  if warpSize ≤ m then syncthreads else syncwarp

end Parts

section Forward

variable (algo : ALGO) (p BD logn : Nat)

/-- A thread reads the powers of the root for its two words. -/
def forward_factors : Code Nat Cell :=
  [.load .aux fun tid => psi BD (pos1 BD tid)] ++
    forShoup algo [.load .aux_shoup fun tid => psi_shoup algo BD (pos1 BD tid)] ++
    [.load .root fun _ => .table .psi (1 <<< (logn - 1))] ++
    forShoup algo [.load .root_shoup fun _ => .table .psi_shoup (1 <<< (logn - 1))]

def forward_negacyclic_scale_1D : Code Nat Cell :=
  forward_factors algo BD logn ++
    [.load .a fun tid => .shared (tid <<< 1),
      .assign .a fun r => modmult algo (r .a) (r .aux) p (r .aux_shoup),
      .store (fun tid => .shared (tid <<< 1)) fun r => r .a,
      .load .a fun tid => .shared ((tid <<< 1) + 1),
      .assign .aux2 fun r => modmult algo (r .a) (r .aux) p (r .aux_shoup),
      .store (fun tid => .shared ((tid <<< 1) + 1)) fun r =>
        modmult .barrett (r .aux2) (r .root) p (r .root_shoup)]

/-- A thread reads the twist of its block before it waits. -/
def NTT_twist (maskPsi log_psi : Nat) : Code Nat Cell :=
  [.load .psi fun tid => psi BD (psiid maskPsi log_psi tid),
    .load .psi_shoup fun tid => psi_shoup algo BD (psiid maskPsi log_psi tid)]

def NTT_round (m maskPsi log_psi : Nat) : Code Nat Cell :=
  NTT_twist algo BD maskPsi log_psi ++ [sync m] ++
    CT_butterfly algo p (fun tid => .shared (NTT_j1 m tid)) fun tid => .shared (NTT_j2 m tid)

def NTT_1D_ (dat res : Nat) : Code Nat Cell :=
  let logN := ffs (2 * BD) - 1
  let m := BD >>> 1
  load_psi algo BD .psi .psi_shoup ++ copy (.limb dat) .shared ++ [syncthreads] ++
    forward_negacyclic_scale_1D algo p BD logN ++ [syncthreads] ++
    halves p BD ++ NTT_rounds (NTT_round algo p BD) m (BD ||| BD >>> 1) (ffs BD - 2) ++
    copy .shared (.limb res)

end Forward

section Backward

variable (algo : ALGO) (constants : Constants) (BD logn : Nat)

/-- The inverse of the length goes into the powers of the inverse root. -/
def backward_factors : Code Nat Cell :=
  [.load .aux fun tid => psi BD (pos1 BD tid),
    .load .root fun _ => .table .inv_psi (1 <<< (logn - 1)), .assign .root_shoup fun _ => 0] ++
    forShoup algo [.load .root_shoup fun _ => .table .inv_psi_shoup (1 <<< (logn - 1))] ++
    [.assign .aux fun r => modmult .barrett (r .aux) (1 <<< (constants.logN - logn)) constants.p 0,
      .assign .aux fun r =>
        modmult .shoup (r .aux) constants.N_inv constants.p constants.N_inv_shoup,
      .assign .aux2 fun r => modmult algo (r .aux) (r .root) constants.p (r .root_shoup)]

def backward_negacyclic_scale_1D : Code Nat Cell :=
  backward_factors algo constants BD logn ++
    [.load .a fun tid => .shared (tid <<< 1),
      .store (fun tid => .shared (tid <<< 1)) fun r =>
        modmult .barrett (r .a) (r .aux) constants.p 0,
      .load .a fun tid => .shared ((tid <<< 1) + 1),
      .store (fun tid => .shared ((tid <<< 1) + 1)) fun r =>
        modmult .barrett (r .a) (r .aux2) constants.p 0]

def INTT_round (m maskPsi log_psi : Nat) : Code Nat Cell :=
  [sync m, .load .psi fun tid => psi BD (psiid maskPsi log_psi tid)] ++
    forShoup algo [.load .psi_shoup fun tid => psi_shoup algo BD (psiid maskPsi log_psi tid)] ++
    GS_butterfly algo constants.p (fun tid => .shared (INTT_j1 m tid))
      fun tid => .shared (INTT_j2 m tid)

/-- No barrier stands between the last level and the scaling of its words. -/
def INTT_1D_ (dat res : Nat) : Code Nat Cell :=
  let logN := ffs (2 * BD) - 1
  load_psi algo BD .inv_psi .inv_psi_shoup ++ copy (.limb dat) .shared ++ [syncthreads] ++
    INTT_rounds (INTT_round algo constants BD) BD 1 (BD - 1) 0 ++ [syncthreads] ++
    halves constants.p (INTT_m BD 1) ++
    backward_negacyclic_scale_1D algo constants BD logN ++ [syncthreads] ++
    copy .shared (.limb res)

end Backward

section Geometry

/-- A thread reverses the bits of its own number. -/
theorem pos1_eq {k tid : Nat} (narrow : k < 32) (inside : tid < 2 ^ k) :
    pos1 (2 ^ k) tid = reverse k tid := by
  have wide : 32 = k + (31 - k + 1) := by omega
  rw [pos1, clz_two_pow, brev, wide, BitReversal.reverse_widen k _ inside,
    Nat.shiftRight_eq_div_pow, Nat.mul_div_cancel _ (Nat.two_pow_pos _)]

end Geometry

section Rounds

variable (algo : ALGO) (constants : Constants) (p k : Nat)

/-- The forward kernel loads, scales and goes down through all levels. -/
theorem NTT_1D_eq (dat res : Nat) :
    NTT_1D_ algo p (2 ^ k) dat res =
      load_psi algo (2 ^ k) .psi .psi_shoup ++ copy (.limb dat) .shared ++ [syncthreads] ++
        forward_negacyclic_scale_1D algo p (2 ^ k) (k + 1) ++ [syncthreads] ++
        halves p (2 ^ k) ++ forwardLevels (NTT_round algo p (2 ^ k)) k k ++ copy .shared (.limb res) := by
  have mask : 2 ^ (k + 1) - 2 ^ k = 2 ^ k := by
    rw [pow_succ]
    omega
  have rounds := NTT_rounds_eq (NTT_round algo p (2 ^ k)) k (le_refl k)
  rw [mask] at rounds
  simp only [NTT_1D_, ← pow_succ', ffs_two_pow]
  rw [show k + 1 - 2 = k - 1 by omega, rounds, Nat.add_sub_cancel]

theorem INTT_1D_eq (dat res : Nat) :
    INTT_1D_ algo constants (2 ^ k) dat res =
      load_psi algo (2 ^ k) .inv_psi .inv_psi_shoup ++ copy (.limb dat) .shared ++ [syncthreads] ++
        backwardLevels (INTT_round algo constants (2 ^ k)) k k ++ [syncthreads] ++ halves constants.p (2 ^ k) ++
        backward_negacyclic_scale_1D algo constants (2 ^ k) (k + 1) ++ [syncthreads] ++
        copy .shared (.limb res) := by
  have rounds := INTT_rounds_eq (INTT_round algo constants (2 ^ k)) k (Nat.zero_le k)
  rw [pow_zero] at rounds
  have last := INTT_m_eq (Nat.zero_le k)
  rw [pow_zero] at last
  simp only [INTT_1D_, ← pow_succ', ffs_two_pow, last, Nat.add_sub_cancel]
  rw [show INTT_rounds (INTT_round algo constants (2 ^ k)) (2 ^ k) 1 (2 ^ k - 1) 0 = backwardLevels (INTT_round algo constants (2 ^ k)) k k
    from rounds]

end Rounds

end Fideslib.OnePass
