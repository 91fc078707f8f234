/-
This file models the inner product of digits and a key and shows that fusing it keeps its residues.
-/

import Fideslib.KeySwitch.Digits
import Fideslib.KeySwitch.Transform
import Fideslib.Library.Scatter
import Fideslib.KeySwitch.ModDown

namespace Fideslib.KeySwitch

open Fideslib.Modular

/-- The limbs of the chain lie beside the limbs that each digit is extended to. -/
structure DigitPoly where
  limb : Nat → Limb
  DIGITlimb : Nat → Nat → Limb
deriving Inhabited

structure KeySwitchingKey where
  a : DigitPoly
  b : DigitPoly
deriving Inhabited

inductive Component
  | c0
  | c1
deriving DecidableEq, Repr

/-- The results of a launch are pairs of polynomials. -/
structure Cell where
  component : Component
  result : Nat
  special : Bool
  limb : Nat
  idx : Nat
deriving DecidableEq

/-- The memory holds the words of all results. -/
def store (results : Nat → Component → RNSPoly) (cell : Cell) : Nat :=
  if cell.special then (results cell.result cell.component).special cell.limb cell.idx
  else (results cell.result cell.component).limb cell.limb cell.idx

/-- A polynomial takes its limbs from the memory after a launch. -/
def RNSPoly.load (poly : RNSPoly) (memory : Cell → Nat) (component : Component) (result : Nat) :
    RNSPoly :=
  { poly with
    limb := fun i idx => memory ⟨component, result, false, i, idx⟩
    special := fun k idx => memory ⟨component, result, true, k, idx⟩ }

/-- A table holds pointers to the limbs of polynomials. -/
abbrev PointerTable := Nat → Nat → Limb

section Kernel

variable {raw : RawParams} (digits : Digits raw)

/-- The first rows of a launch are the special primes. -/
def rowPrime (blky num_special : Nat) : Nat :=
  if blky < num_special then digits.primeid_digit_to 0 blky
  else digits.primeid_partition (blky - num_special)

/-- A prime of the digit itself is read from the limbs of the chain. -/
def readDigit (table : PointerTable) (block i primeid pos_dec : Nat) : Limb :=
  let decomp := digits.primeid_digit primeid = some i
  let pos := digits.pos_in_digit i primeid
  table (i + block * digits.dnum + if decomp then 3 * digits.dnum else 0)
    (if decomp then pos_dec else pos)

/-- The products with one polynomial of the key are added up in a wide word. -/
def wideDot (table : PointerTable) (block num_d primeid pos_dec idx : Nat) : Nat :=
  (List.range num_d).foldl (fun aux i =>
    let in_ := readDigit digits table 0 i primeid pos_dec idx
    let add := in_ * readDigit digits table block i primeid pos_dec idx
    if i = 0 then add else (aux + add) % 2 ^ 128) 0

variable (cc : Constants)

/-- The special limbs of an output have pointers of their own. -/
def outputCell (component : Component) (result primeid pos_dec idx : Nat) : Cell :=
  if primeid < cc.L then ⟨component, result, false, pos_dec, idx⟩
  else ⟨component, result, true, primeid - cc.L, idx⟩

def fusedDotKSK_2_ (table : PointerTable) (num_d num_special : Nat) (thread : Nat × Nat) :
    List (Cell × Nat) :=
  let blky := thread.1
  let idx := thread.2
  let primeid := rowPrime digits blky num_special
  let pos_dec := blky - num_special
  let aux1 := wideDot digits table 1 num_d primeid pos_dec idx
  let aux2 := wideDot digits table 2 num_d primeid pos_dec idx
  [(outputCell cc .c1 0 primeid pos_dec idx, modreduce aux1 (cc.primes primeid)),
    (outputCell cc .c0 0 primeid pos_dec idx, modreduce aux2 (cc.primes primeid))]

/-- The host writes the pointers of the live digits into a table with other contents. -/
def dotPointers (num_d : Nat) (source : DigitPoly) (ksk : KeySwitchingKey) :
    List (Nat × (Nat → Limb)) :=
  (List.range num_d).flatMap fun i =>
    [(i, source.DIGITlimb i), (i + digits.dnum, ksk.a.DIGITlimb i),
      (i + 2 * digits.dnum, ksk.b.DIGITlimb i), (i + 3 * digits.dnum, source.limb),
      (i + 4 * digits.dnum, ksk.a.limb), (i + 5 * digits.dnum, ksk.b.limb)]

/-- The source has the digits of the scratch polynomial and the limbs of the operand. -/
def dotKSKfused (order : List (Nat × Nat)) (stale : PointerTable) (out1 out2 : RNSPoly)
    (source : DigitPoly) (ksk : KeySwitchingKey) : RNSPoly × RNSPoly :=
  let num_d := digits.num_d (out1.level + 1)
  let table := Scatter.commit (dotPointers digits num_d source ksk) stale
  let memory := Scatter.launch (fusedDotKSK_2_ digits cc table num_d digits.num_special) order
    (store fun _ component => match component with
      | .c0 => out2
      | .c1 => out1)
  (out1.load memory .c1 0, out2.load memory .c0 0)

/-- The second result is the scratch polynomial of the context. -/
def dotKSKInPlaceFrom (order : List (Nat × Nat)) (stale : PointerTable) (self aux2 : RNSPoly)
    (source : DigitPoly) (ksk : KeySwitchingKey) : RNSPoly × RNSPoly :=
  let out := dotKSKfused digits cc order stale (self.generateSpecialLimbs cc)
    ({ aux2 with level := self.level }.generateSpecialLimbs cc) source ksk
  ({ out.1 with modUp := true }, { out.2 with modUp := true })

end Kernel

/-- A launch has a thread for each word of its rows. -/
def Covers (order : List (Nat × Nat)) (rows columns : Nat) : Prop :=
  ∀ row column, (row, column) ∈ order ↔ row < rows ∧ column < columns

/-- These primes have limbs in an extended polynomial. -/
def RawParams.Live (raw : RawParams) (level id : Nat) : Prop :=
  id ≤ level ∨ raw.L ≤ id ∧ id < raw.L + raw.K

namespace Digits

variable {raw : RawParams} (digits : Digits raw)

/-- This limb meets a prime in the product with a digit. -/
def operand (poly : DigitPoly) (i primeid : Nat) : Limb :=
  if digits.primeid_digit primeid = some i then poly.limb primeid
  else poly.DIGITlimb i (digits.pos_in_digit i primeid)

/-- The operands of the live digits are reduced. -/
def Reduced (level : Nat) (poly : DigitPoly) : Prop :=
  ∀ i, i < digits.num_d (level + 1) → ∀ id, raw.Live level id → ∀ idx, idx < raw.N →
    digits.operand poly i id idx < raw.prime id

end Digits

/-- The word of an extended polynomial for one prime. -/
def RNSPoly.word (raw : RawParams) (poly : RNSPoly) (id : Nat) : Limb :=
  if id < raw.L then poly.limb id else poly.special (id - raw.L)

end Fideslib.KeySwitch

namespace Fideslib.KeySwitch

open Fideslib.Modular
open Constants (SetupConstants)

namespace RawParams

variable {raw : RawParams} {level id : Nat}

/-- The row of a prime in an extended launch. -/
def row (raw : RawParams) (id : Nat) : Nat := if id < raw.L then raw.K + id else id - raw.L

theorem Live.inside (live : raw.Live level id) (bound : level < raw.L) : id < raw.L + raw.K := by
  rcases live with regular | special
  · omega
  · exact special.2

theorem Live.row_lt (live : raw.Live level id) (bound : level < raw.L) :
    raw.row id < raw.K + (level + 1) := by
  rw [row]
  rcases live with regular | ⟨above, below⟩
  · rw [if_pos (by omega)]
    omega
  · rw [if_neg (by omega)]
    omega

end RawParams

section Rows

variable {raw : RawParams} (digits : Digits raw) {level : Nat} (bound : level < raw.L)

include bound

theorem rowPrime_row {id : Nat} (live : raw.Live level id) :
    rowPrime digits (raw.row id) raw.K = id := by
  rw [rowPrime, RawParams.row]
  rcases live with regular | ⟨above, below⟩
  · rw [if_pos (show id < raw.L by omega), if_neg (by omega), Nat.add_sub_cancel_left]
    exact digits.primeid_partition_eq (by omega)
  · rw [if_neg (show ¬id < raw.L by omega), if_pos (by omega),
      digits.primeid_digit_to_special (by omega)]
    omega

/-- Each row of the launch works on a live prime. -/
theorem rowPrime_live {blky : Nat} (inside : blky < raw.K + (level + 1)) :
    raw.Live level (rowPrime digits blky raw.K) ∧ raw.row (rowPrime digits blky raw.K) = blky := by
  rw [rowPrime]
  by_cases special : blky < raw.K
  · rw [if_pos special, digits.primeid_digit_to_special special, RawParams.row, if_neg (by omega)]
    exact ⟨Or.inr ⟨by omega, by omega⟩, by omega⟩
  · rw [if_neg special, digits.primeid_partition_eq (by omega), RawParams.row, if_pos (by omega)]
    exact ⟨Or.inl (by omega), by omega⟩

end Rows

theorem RNSPoly.generateSpecialLimbs_level (cc : Constants) (self : RNSPoly) :
    (self.generateSpecialLimbs cc).level = self.level := by
  rw [RNSPoly.generateSpecialLimbs]
  split_ifs <;> rfl

theorem RNSPoly.generateSpecialLimbs_word (raw : RawParams) (self : RNSPoly) (id idx : Nat) :
    (self.generateSpecialLimbs (SetupConstants raw)).word raw id idx = self.word raw id idx := by
  rw [RNSPoly.generateSpecialLimbs]
  split_ifs <;> rfl

/-- The cell of a prime is found by its row. -/
theorem outputCell_row (raw : RawParams) (component : Component) (result id idx : Nat) :
    outputCell (SetupConstants raw) component result id (raw.row id - raw.K) idx =
      outputCell (SetupConstants raw) component result id id idx := by
  have length : (SetupConstants raw).L = raw.L := rfl
  rw [outputCell, outputCell, RawParams.row, length]
  by_cases regular : id < raw.L
  · rw [if_pos regular, if_pos regular, if_pos regular, Nat.add_sub_cancel_left]
  · rw [if_neg regular, if_neg regular]

theorem load_word (raw : RawParams) (poly : RNSPoly) (memory : Cell → Nat) (component : Component)
    (result id idx : Nat) :
    (poly.load memory component result).word raw id idx =
      memory (outputCell (SetupConstants raw) component result id id idx) := by
  have length : (SetupConstants raw).L = raw.L := rfl
  rw [RNSPoly.word, outputCell, length]
  by_cases regular : id < raw.L
  · rw [if_pos regular, if_pos regular]
    rfl
  · rw [if_neg regular, if_neg regular]
    rfl

/-- The prime of a cell is read off its pointers. -/
def Cell.prime (raw : RawParams) (cell : Cell) : Nat :=
  if cell.special then raw.L + cell.limb else cell.limb

theorem outputCell_prime (raw : RawParams) (component : Component) (result id idx : Nat) :
    (outputCell (SetupConstants raw) component result id id idx).prime raw = id := by
  have length : (SetupConstants raw).L = raw.L := rfl
  rw [outputCell, length]
  by_cases regular : id < raw.L
  · rw [if_pos regular]
    rfl
  · rw [if_neg regular]
    exact Nat.add_sub_cancel' (by omega)

theorem outputCell_fields (cc : Constants) (component : Component) (result id pos idx : Nat) :
    (outputCell cc component result id pos idx).component = component ∧
      (outputCell cc component result id pos idx).result = result ∧
      (outputCell cc component result id pos idx).idx = idx := by
  rw [outputCell]
  split_ifs <;> exact ⟨rfl, rfl, rfl⟩

/-- A block of a table points to the limbs of one polynomial. -/
def Points {raw : RawParams} (digits : Digits raw) (table : PointerTable) (num_d block : Nat)
    (poly : DigitPoly) : Prop :=
  ∀ i, i < num_d → table (i + block * digits.dnum) = poly.DIGITlimb i ∧
    table (i + block * digits.dnum + 3 * digits.dnum) = poly.limb

section Table

variable {raw : RawParams} (digits : Digits raw)

/-- The blocks of the table are the polynomial and the two halves of the key. -/
def blockPoly (source : DigitPoly) (ksk : KeySwitchingKey) (block : Nat) : DigitPoly :=
  if block = 0 then source else if block = 1 then ksk.a else ksk.b

/-- An entry of the table is found by its block and its digit. -/
def tableEntry (source : DigitPoly) (ksk : KeySwitchingKey) (entry : Nat) : Nat → Limb :=
  let block := entry / digits.dnum
  if block < 3 then (blockPoly source ksk block).DIGITlimb (entry % digits.dnum)
  else (blockPoly source ksk (block - 3)).limb

theorem block_div {dnum i : Nat} (inside : i < dnum) (block : Nat) :
    (i + block * dnum) / dnum = block ∧ (i + block * dnum) % dnum = i := by
  have positive : 0 < dnum := by omega
  rw [Nat.add_mul_div_right _ _ positive, Nat.add_mul_mod_self_right, Nat.div_eq_of_lt inside,
    Nat.mod_eq_of_lt inside]
  exact ⟨Nat.zero_add block, rfl⟩

variable {digits} {num_d : Nat} (within : num_d ≤ digits.dnum)

include within

theorem dotPointers_determined (source : DigitPoly) (ksk : KeySwitchingKey) :
    Scatter.Determined (dotPointers digits num_d source ksk) (tableEntry digits source ksk) := by
  intro write mem
  obtain ⟨i, range, entry⟩ := List.mem_flatMap.mp mem
  have inside : i < digits.dnum := (List.mem_range.mp range).trans_le within
  have place := block_div inside
  have zero := place 0
  have one := place 1
  rw [Nat.zero_mul, Nat.add_zero] at zero
  rw [Nat.one_mul] at one
  simp only [List.mem_cons, List.not_mem_nil, or_false] at entry
  rcases entry with rfl | rfl | rfl | rfl | rfl | rfl
  · simp [tableEntry, blockPoly, zero.1, zero.2]
  · simp [tableEntry, blockPoly, one.1, one.2]
  · simp [tableEntry, blockPoly, (place 2).1, (place 2).2]
  · simp [tableEntry, blockPoly, (place 3).1]
  · simp [tableEntry, blockPoly, (place 4).1]
  · simp [tableEntry, blockPoly, (place 5).1]

/-- The table of the host points to the operands, whatever it held before. -/
theorem dotPointers_points (source : DigitPoly) (ksk : KeySwitchingKey) (stale : PointerTable)
    {block : Nat} (three : block < 3) :
    Points digits (Scatter.commit (dotPointers digits num_d source ksk) stale) num_d block
      (blockPoly source ksk block) := by
  intro i inside
  have below : i < digits.dnum := inside.trans_le within
  have determined := dotPointers_determined within source ksk
  have far : i + block * digits.dnum + 3 * digits.dnum = i + (block + 3) * digits.dnum := by ring
  have written : ∀ write ∈ [(i, source.DIGITlimb i), (i + digits.dnum, ksk.a.DIGITlimb i),
      (i + 2 * digits.dnum, ksk.b.DIGITlimb i), (i + 3 * digits.dnum, source.limb),
      (i + 4 * digits.dnum, ksk.a.limb), (i + 5 * digits.dnum, ksk.b.limb)],
      Scatter.commit (dotPointers digits num_d source ksk) stale write.1 = write.2 :=
    fun write mem => Scatter.commit_written determined
      (List.mem_flatMap.mpr ⟨i, List.mem_range.mpr inside, mem⟩) stale
  simp only [List.forall_mem_cons] at written
  obtain ⟨digit, aDigit, bDigit, limb, aLimb, bLimb, -⟩ := written
  rw [far]
  interval_cases block
  · rw [Nat.zero_mul, Nat.add_zero, digit, limb]
    exact ⟨rfl, rfl⟩
  · rw [Nat.one_mul, aDigit, aLimb]
    exact ⟨rfl, rfl⟩
  · rw [bDigit, bLimb]
    exact ⟨rfl, rfl⟩

end Table

section Products

variable {raw : RawParams} (generated : raw.Generated) {digits : Digits raw} {level : Nat}
  (bound : level < raw.L)

theorem readDigit_eq {table : PointerTable} {num_d block : Nat} {poly : DigitPoly}
    (points : Points digits table num_d block poly) {i id : Nat} (inside : i < num_d) :
    readDigit digits table block i id (raw.row id - raw.K) = digits.operand poly i id := by
  obtain ⟨extension, chain⟩ := points i inside
  rw [readDigit, Digits.operand]
  by_cases decomp : digits.primeid_digit id = some i
  · have regular := digits.regular_of_digit decomp
    simp only [decomp, if_true]
    rw [chain, RawParams.row, if_pos regular, Nat.add_sub_cancel_left]
  · simp only [decomp, if_false]
    rw [Nat.add_zero, extension]

include generated bound

theorem product_bound {first second : DigitPoly} (firstReduced : digits.Reduced level first)
    (secondReduced : digits.Reduced level second) {id idx i : Nat} (live : raw.Live level id)
    (position : idx < raw.N) (inside : i < digits.num_d (level + 1)) :
    digits.operand first i id idx * digits.operand second i id idx ≤ 2 ^ 60 * 2 ^ 60 := by
  have small := generated.small id (live.inside bound)
  have left := firstReduced i inside id live idx position
  have right := secondReduced i inside id live idx position
  exact Nat.mul_le_mul (by omega) (by omega)

theorem partialDot_le {first second : DigitPoly} (firstReduced : digits.Reduced level first)
    (secondReduced : digits.Reduced level second) {id idx count : Nat} (live : raw.Live level id)
    (position : idx < raw.N) (within : count ≤ digits.num_d (level + 1)) :
    ∑ i ∈ Finset.range count, digits.operand first i id idx * digits.operand second i id idx ≤
      8 * (2 ^ 60 * 2 ^ 60) := by
  have eight : digits.num_d (level + 1) ≤ 8 := (digits.num_d_le _).trans digits.tables
  have each := Finset.sum_le_card_nsmul (Finset.range count) (fun i =>
    digits.operand first i id idx * digits.operand second i id idx) (2 ^ 60 * 2 ^ 60)
    fun i member => product_bound generated bound firstReduced secondReduced live position
      ((Finset.mem_range.mp member).trans_le within)
  rw [Finset.card_range, smul_eq_mul] at each
  exact each.trans (Nat.mul_le_mul_right _ (within.trans eight))

/-- The wide words do not overflow. -/
theorem wideDot_eq {source key : DigitPoly} (sourceReduced : digits.Reduced level source)
    (keyReduced : digits.Reduced level key) {table : PointerTable} {block : Nat}
    (sourcePoints : Points digits table (digits.num_d (level + 1)) 0 source)
    (keyPoints : Points digits table (digits.num_d (level + 1)) block key) {id idx : Nat}
    (live : raw.Live level id) (position : idx < raw.N) {count : Nat}
    (within : count ≤ digits.num_d (level + 1)) :
    wideDot digits table block count id (raw.row id - raw.K) idx =
      ∑ i ∈ Finset.range count, digits.operand source i id idx * digits.operand key i id idx := by
  induction count with
  | zero => rfl
  | succ count inductionHypothesis =>
      have sum := inductionHypothesis (by omega)
      have room := partialDot_le generated bound sourceReduced keyReduced live position within
      rw [Finset.sum_range_succ] at room ⊢
      rw [wideDot, List.range_succ, List.foldl_append, List.foldl_cons, List.foldl_nil, ← wideDot,
        sum, readDigit_eq sourcePoints (by omega), readDigit_eq keyPoints (by omega)]
      by_cases first : count = 0
      · rw [if_pos first, first, Finset.sum_range_zero, Nat.zero_add]
      · rw [if_neg first, Nat.mod_eq_of_lt (by omega)]

end Products

/-- This is the inner product of the live digits and one half of a key. -/
def Digits.dot {raw : RawParams} (digits : Digits raw) (level : Nat) (source key : DigitPoly)
    (id idx : Nat) : Nat :=
  ∑ i ∈ Finset.range (digits.num_d (level + 1)),
    digits.operand source i id idx * digits.operand key i id idx

section Fused

variable {raw : RawParams}

/-- The wide reduction of an inner product gives its residue. -/
theorem dot_reduced (generated : raw.Generated) {digits : Digits raw} {level : Nat}
    (bound : level < raw.L) {source key : DigitPoly} (sourceReduced : digits.Reduced level source)
    (keyReduced : digits.Reduced level key) {id idx : Nat} (live : raw.Live level id)
    (position : idx < raw.N) :
    modreduce (digits.dot level source key id idx) (raw.prime id) =
      (digits.dot level source key id idx : ZMod (raw.prime id)).val := by
  have wide : digits.dot level source key id idx ≤ 8 * (2 ^ 60 * 2 ^ 60) :=
    partialDot_le generated bound sourceReduced keyReduced live position le_rfl
  rw [ZMod.val_natCast, modreduce_eq (generated.modulus (live.inside bound)) (by omega)]

theorem dotKSKInPlaceFrom_level (digits : Digits raw) (cc : Constants) (order : List (Nat × Nat))
    (stale : PointerTable) (self aux2 : RNSPoly) (source : DigitPoly) (ksk : KeySwitchingKey) :
    let out := dotKSKInPlaceFrom digits cc order stale self aux2 source ksk
    out.1.level = self.level ∧ out.2.level = self.level ∧ out.1.modUp ∧ out.2.modUp :=
  ⟨self.generateSpecialLimbs_level cc,
    RNSPoly.generateSpecialLimbs_level cc { aux2 with level := self.level }, rfl, rfl⟩

variable (generated : raw.Generated) {digits : Digits raw} {level : Nat}
  (bound : level < raw.L) {source : DigitPoly} {ksk : KeySwitchingKey}
  (sourceReduced : digits.Reduced level source) (aReduced : digits.Reduced level ksk.a)
  (bReduced : digits.Reduced level ksk.b) {order : List (Nat × Nat)}

/-- The half of the key for a component. -/
def KeySwitchingKey.half (ksk : KeySwitchingKey) : Component → DigitPoly
  | .c0 => ksk.b
  | .c1 => ksk.a

include generated bound sourceReduced aReduced bReduced

/-- Each thread writes the residues of the two inner products. -/
theorem fusedDotKSK_2_row (stale : PointerTable) {id idx : Nat} (live : raw.Live level id)
    (column : idx < raw.N) :
    fusedDotKSK_2_ digits (SetupConstants raw)
        (Scatter.commit (dotPointers digits (digits.num_d (level + 1)) source ksk) stale)
        (digits.num_d (level + 1)) digits.num_special (raw.row id, idx) =
      [.c1, .c0].map fun component => (outputCell (SetupConstants raw) component 0 id id idx,
        modreduce (digits.dot level source (ksk.half component) id idx) (raw.prime id)) := by
  have within := digits.num_d_le (level + 1)
  have sourcePoints := dotPointers_points within source ksk stale (show 0 < 3 by omega)
  have aPoints := dotPointers_points within source ksk stale (show 1 < 3 by omega)
  have bPoints := dotPointers_points within source ksk stale (show 2 < 3 by omega)
  have first := wideDot_eq generated bound sourceReduced aReduced sourcePoints aPoints live column
    le_rfl
  have second := wideDot_eq generated bound sourceReduced bReduced sourcePoints bPoints live column
    le_rfl
  dsimp only [fusedDotKSK_2_]
  rw [digits.num_special_eq, rowPrime_row digits bound live, first, second, outputCell_row,
    outputCell_row]
  rfl

/-- The launch leaves the residues of the inner products on each live prime. -/
theorem dotKSK_launch (stale : PointerTable) (memory : Cell → Nat) (component : Component)
    (covers : Covers order (raw.K + (level + 1)) raw.N) {id idx : Nat} (live : raw.Live level id)
    (column : idx < raw.N) :
    Scatter.launch (fusedDotKSK_2_ digits (SetupConstants raw)
        (Scatter.commit (dotPointers digits (digits.num_d (level + 1)) source ksk) stale)
        (digits.num_d (level + 1)) digits.num_special) order memory
        (outputCell (SetupConstants raw) component 0 id id idx) =
      modreduce (digits.dot level source (ksk.half component) id idx) (raw.prime id) := by
  have determined : ∀ thread ∈ order, Scatter.Determined
      (fusedDotKSK_2_ digits (SetupConstants raw)
        (Scatter.commit (dotPointers digits (digits.num_d (level + 1)) source ksk) stale)
        (digits.num_d (level + 1)) digits.num_special thread)
      (fun cell => modreduce (digits.dot level source (ksk.half cell.component) (cell.prime raw)
        cell.idx) (raw.prime (cell.prime raw))) := by
    intro thread runs write mem
    obtain ⟨row, inside⟩ := (covers thread.1 thread.2).mp runs
    obtain ⟨alive, place⟩ := rowPrime_live digits bound row
    have written := fusedDotKSK_2_row generated bound sourceReduced aReduced bReduced stale alive
      inside
    rw [place] at written
    rw [written] at mem
    obtain ⟨half, -, rfl⟩ := List.mem_map.mp mem
    have fields := outputCell_fields (SetupConstants raw) half 0 (rowPrime digits thread.1 raw.K)
      (rowPrime digits thread.1 raw.K) thread.2
    dsimp only
    rw [fields.1, fields.2.2, outputCell_prime]
  have runs : (raw.row id, idx) ∈ order := (covers _ _).mpr ⟨live.row_lt bound, column⟩
  have own := outputCell_fields (SetupConstants raw) component 0 id id idx
  rw [Scatter.launch_determined determined runs, own.1, own.2.2, outputCell_prime]
  rw [fusedDotKSK_2_row generated bound sourceReduced aReduced bReduced stale live column]
  exact ⟨_, List.mem_map.mpr ⟨component, by cases component <;> simp, rfl⟩, rfl⟩

/-- The product of a polynomial of this level leaves the inner products in its results. -/
theorem dotKSKInPlaceFrom_word (stale : PointerTable) {self aux2 : RNSPoly}
    (atLevel : self.level = level) (covers : Covers order (raw.K + (level + 1)) raw.N) {id idx : Nat}
    (live : raw.Live level id) (column : idx < raw.N) :
    let out := dotKSKInPlaceFrom digits (SetupConstants raw) order stale self aux2 source ksk
    out.1.word raw id idx =
        modreduce (digits.dot level source (ksk.half .c1) id idx) (raw.prime id) ∧
      out.2.word raw id idx =
        modreduce (digits.dot level source (ksk.half .c0) id idx) (raw.prime id) := by
  have kept := self.generateSpecialLimbs_level (SetupConstants raw)
  rw [atLevel] at kept
  have written := fun memory component =>
    dotKSK_launch generated bound sourceReduced aReduced bReduced stale memory component covers live
      column
  simp only [dotKSKInPlaceFrom, dotKSKfused, kept]
  constructor
  · exact (load_word raw self _ .c1 0 id idx).trans (written _ .c1)
  · exact (load_word raw aux2 _ .c0 0 id idx).trans (written _ .c0)

end Fused

end Fideslib.KeySwitch
