/-
This file models the fast rotations of the interface and proves which words they leave.
-/

import Fideslib.KeySwitch.HoistedRotation
import Fideslib.KeySwitch.ModDown
import Fideslib.KeySwitch.ModUp
import Fideslib.KeySwitch.HoistedContract
import Fideslib.KeySwitch.ModDownContract
import Fideslib.KeySwitch.ModUpContract

namespace Fideslib.KeySwitch

open LinearTransform (normalyzeIndex)

/-- A ciphertext on the device has the data of its key and of its scale. -/
structure DeviceCiphertext (Key Factor : Type) extends SlottedCiphertext where
  keyID : Key
  NoiseLevel : Nat
  NoiseFactor : Factor

/-- A call meets scratch polynomials with old words and orders of its threads. -/
structure Scratch where
  around : Surroundings
  keySwitchAux : RNSPoly
  GATHERlimb : Nat → Limb
  DIGITlimb : Nat → Nat → Limb
  /-- The context lends these polynomials to its new ciphertexts. -/
  auxilarPoly : Nat → Component → RNSPoly

namespace RNSPoly

variable (cc : Constants) {raw : RawParams} (digits : Digits raw) (tables : ModUpTables)

/-- Each live digit is transformed back, converted to its other primes and transformed. -/
def modup (GATHERlimb : Nat → Limb) (DIGITlimb : Nat → Nat → Limb) (self : RNSPoly) (d : Nat) :
    Nat → Limb :=
  if d < digits.dnum ∧ 0 < digits.size (self.level + 1) d then
    let gathered i := launch cc.N (cc.INTT (digits.primeid_partition i) (self.limb i)) (GATHERlimb i)
    let converted := DecompAndModUpConv cc digits tables .shoup
      (fun i => gathered (digits.start d + i)) (self.level + 1) (DIGITlimb d) d
    onLimbs (digits.num_primeid_digit_to d self.level)
      (fun j => launch cc.N (cc.NTT (digits.primeid_digit_to d j) (converted j)) (converted j))
      converted
  else DIGITlimb d

end RNSPoly

namespace DeviceCiphertext

variable {Key Factor : Type} (cc : Constants)

def half (self : DeviceCiphertext Key Factor) : Component → RNSPoly
  | .c0 => self.c0
  | .c1 => self.c1

def withHalves (self : DeviceCiphertext Key Factor) (halves : Component → RNSPoly) :
    DeviceCiphertext Key Factor :=
  { self with
    c0 := halves .c0
    c1 := halves .c1 }

/-- The words and the data of the other ciphertext are copied. -/
def copy (halves : Component → RNSPoly) (ciphertext : DeviceCiphertext Key Factor) :
    DeviceCiphertext Key Factor :=
  ciphertext.withHalves fun component => (halves component).copy cc (ciphertext.half component)

def modDown (aux : Component → Nat → Limb) (self : DeviceCiphertext Key Factor) :
    Option (DeviceCiphertext Key Factor) := do
  let c0 ← self.c0.moddown cc .shoup true false (aux .c0)
  let c1 ← self.c1.moddown cc .shoup true false (aux .c1)
  some { self with c0, c1 }

variable {raw : RawParams} (digits : Digits raw) (tables : ModUpTables)
  (rot_keys : Key → Nat → Option KeySwitchingKey) (scratch : Scratch)

/-- A single rotation asserts that its index is not trivial and that its operand is regular. -/
def rotate (self : DeviceCiphertext Key Factor) (index__ : Int) (moddown : Bool) :
    Option (DeviceCiphertext Key Factor) :=
  let index := normalyzeIndex index__ self.slots cc.N
  if index ≠ 0 ∧ self.c1.modUp = false then do
    let in1 := scratch.keySwitchAux.copy cc self.c1
    let source : DigitPoly :=
      ⟨in1.limb, in1.modup cc digits tables scratch.GATHERlimb scratch.DIGITlimb⟩
    let in0 := scratch.around.aux2.copy cc self.c0
    let key ← GetRotationKey (rot_keys self.keyID) cc.N index self.slots
    let rotated := hoistedRotationFused digits cc scratch.around [⟨0, key.1, key.2⟩]
      (fun _ => self.half) source in0 in1.level
    if moddown then (self.withHalves (rotated 0)).modDown cc (scratch.around.moddownAux 0)
    else some (self.withHalves (rotated 0))
  else none

/-- The hoisted rotations read the limbs of their operand beside its digits. -/
def hoistedSource (self : DeviceCiphertext Key Factor) : DigitPoly where
  limb := self.c1.limb
  DIGITlimb := (scratch.keySwitchAux.copy cc self.c1).modup cc digits tables scratch.GATHERlimb
    scratch.DIGITlimb

/-- The results of trivial rotations are copies, which are extended on request. -/
def copied (self : DeviceCiphertext Key Factor) (indexes : List Int)
    (results : Nat → Component → RNSPoly) (ext : Bool) (i : Nat) (component : Component) : RNSPoly :=
  let grown := grow cc ext self.c0.level results i
  if indexes.getD i 0 = 0 then copyResult cc ext self.toSlottedCiphertext grown component
  else grown component

/-- The fused launch serves all keys, and its results are reduced unless they stay extended. -/
def rotate_hoisted (self : DeviceCiphertext Key Factor) (indexes_ : List Int)
    (results : Nat → Component → RNSPoly) (ext : Bool) : Option (List (DeviceCiphertext Key Factor)) :=
  let indexes := indexes_.map fun i => normalyzeIndex i self.slots cc.N
  do
    let rotated ← (indexes.zipIdx.filter fun item => item.1 ≠ 0).mapM
      (collectKey cc (rot_keys self.keyID) self.toSlottedCiphertext)
    let fused := hoistedRotationFused digits cc scratch.around rotated
      (self.copied cc indexes results ext) (self.hoistedSource cc digits tables scratch) self.c0
      self.c1.level
    indexes.zipIdx.mapM fun item =>
      let result := self.withHalves (fused item.2)
      if item.1 ≠ 0 ∧ ext = false then result.modDown cc (scratch.around.moddownAux item.2)
      else some result

end DeviceCiphertext

section Interface

variable {Key Factor : Type} (cc : Constants) {raw : RawParams} (digits : Digits raw)
  (tables : ModUpTables) (rot_keys : Key → Nat → Option KeySwitchingKey) (scratch : Scratch)

/-- The rotated ciphertext is a copy of the operand that is copied to once more. -/
def evalSingle (ct : DeviceCiphertext Key Factor) (index : Int) (moddown : Bool) :
    Option (DeviceCiphertext Key Factor) :=
  let result := ct.copy cc (scratch.auxilarPoly 0)
  (ct.copy cc result.half).rotate cc digits tables rot_keys scratch index moddown

def EvalFastRotation (ct : DeviceCiphertext Key Factor) (index : Int) :
    Option (DeviceCiphertext Key Factor) :=
  evalSingle cc digits tables rot_keys scratch ct index true

/-- The flag of the first component is not read. -/
def EvalFastRotationExt (ct : DeviceCiphertext Key Factor) (index : Int) (_addFirst : Bool) :
    Option (DeviceCiphertext Key Factor) :=
  evalSingle cc digits tables rot_keys scratch ct index false

/-- The hoisted rotations write through the pointers to the results with other indices than zero. -/
def writeResults {Result : Type} : List (Int × Result) → List Result → List Result
  | [], _ => []
  | (index, copy) :: rest, hoisted =>
      if index = 0 then copy :: writeResults rest hoisted
      else hoisted.headD copy :: writeResults rest hoisted.tail

/-- Each index has a copy of the operand, and the others than zero are rotated together. -/
def evalVector (ct : DeviceCiphertext Key Factor) (indices : List Int) (ext : Bool) :
    Option (List (DeviceCiphertext Key Factor)) := do
  let results := indices.zipIdx.map fun (index, i) => (index, ct.copy cc (scratch.auxilarPoly i))
  let real := results.filter fun result => result.1 ≠ 0
  let hoisted ← ct.rotate_hoisted cc digits tables rot_keys scratch (real.map Prod.fst)
    (fun i => ((real.map Prod.snd).getD i ct).half) ext
  some (writeResults results hoisted)

def EvalFastRotationVector (ct : DeviceCiphertext Key Factor) (indices : List Int) :
    Option (List (DeviceCiphertext Key Factor)) :=
  evalVector cc digits tables rot_keys scratch ct indices false

/-- The flag of the first component is not read. -/
def EvalFastRotationExtVector (ct : DeviceCiphertext Key Factor) (indices : List Int)
    (_addFirst : Bool) : Option (List (DeviceCiphertext Key Factor)) :=
  evalVector cc digits tables rot_keys scratch ct indices true

end Interface

end Fideslib.KeySwitch

namespace Fideslib.KeySwitch

open Constants (SetupConstants)
open LinearTransform (normalyzeIndex)

section Copies

variable {raw : RawParams} (self : RNSPoly) {poly : RNSPoly}

theorem copy_limb {i : Nat} (inside : i ≤ poly.level) :
    (self.copy (SetupConstants raw) poly).limb i = poly.limb i :=
  onLimbs_inside _ _ (Nat.lt_succ_of_le inside)

theorem copy_special (extended : poly.modUp = true) {k : Nat} (inside : k < raw.K) :
    (self.copy (SetupConstants raw) poly).special k = poly.special k := by
  dsimp only [RNSPoly.copy]
  rw [if_pos extended]
  exact onLimbs_inside _ _ inside

/-- A copy has the words of its operand on the limbs in use. -/
theorem copy_word {id idx : Nat} (live : raw.Live poly.level id) (chain : poly.level < raw.L)
    (present : poly.modUp = true ∨ id < raw.L) :
    (self.copy (SetupConstants raw) poly).word raw id idx = poly.word raw id idx := by
  rw [RNSPoly.word, RNSPoly.word]
  by_cases regular : id < raw.L
  · have low : id ≤ poly.level := by
      rcases live with below | special <;> omega
    rw [if_pos regular, if_pos regular, copy_limb self low]
  · have inside : id - raw.L < raw.K := by
      rcases live with below | special <;> omega
    rw [if_neg regular, if_neg regular, copy_special self (present.resolve_right regular) inside]

theorem copy_scaled {id idx : Nat} (live : raw.Live poly.level id) (chain : poly.level < raw.L) :
    (self.copy (SetupConstants raw) poly).scaled raw id idx = poly.scaled raw id idx := by
  rw [RNSPoly.scaled, RNSPoly.scaled, show (self.copy (SetupConstants raw) poly).modUp = poly.modUp
    from rfl]
  by_cases extended : poly.modUp = true
  · rw [if_pos extended, if_pos extended, copy_word self live chain (Or.inl extended)]
  · rw [if_neg extended, if_neg extended]
    by_cases regular : id < raw.L
    · have low : id ≤ poly.level := by
        rcases live with below | special <;> omega
      rw [if_pos regular, if_pos regular, copy_limb self low]
    · rw [if_neg regular, if_neg regular]

theorem copy_canonical (canonical : poly.Canonical raw)
    (allocated : self.specialLimbs = 0 ∨ self.specialLimbs = raw.K) :
    (self.copy (SetupConstants raw) poly).Canonical raw where
  level := canonical.level
  limb := by
    intro j inside i bound
    have low : j ≤ poly.level := inside
    rw [copy_limb self low]
    exact canonical.limb j inside i bound
  special := by
    intro extended k inside i bound
    have own : poly.modUp = true := extended
    rw [copy_special self own inside]
    exact canonical.special own k inside i bound
  allocated := by
    dsimp only [RNSPoly.copy]
    by_cases extended : poly.modUp = true
    · rw [if_pos extended]
      exact Or.inr (generateSpecialLimbs_allocated allocated)
    · rw [if_neg extended]
      exact allocated

end Copies

section Digits

variable {raw : RawParams} (generated : raw.Generated) (digits : Digits raw) (tables : ModUpTables)
  {poly other : RNSPoly}

include generated

/-- The digits of a polynomial are transforms, so their words are reduced. -/
theorem modup_lt (chain : poly.level < raw.L) (GATHERlimb : Nat → Limb)
    (DIGITlimb : Nat → Nat → Limb) {d : Nat} (live : d < digits.num_d (poly.level + 1)) {id : Nat}
    (target : id ∈ digits.targets poly.level d) {idx : Nat} (column : idx < raw.N) :
    poly.modup (SetupConstants raw) digits tables GATHERlimb DIGITlimb d (digits.pos_in_digit d id)
      idx < raw.prime id := by
  have inside : d < digits.dnum := live.trans_le (digits.num_d_le _)
  obtain ⟨place, own⟩ := digits.pos_in_digit_target chain target
  have positive := (generated.modulus (digits.target_lt chain target)).pos
  have thread : idx < (SetupConstants raw).N := column
  rw [RNSPoly.modup, if_pos ⟨inside, digits.size_pos live⟩, onLimbs_inside _ _ place, own,
    launch_inside _ _ thread]
  exact Constants.NTT_lt positive _ _

/-- The digits depend on the limbs in use only. -/
theorem modup_congr (chain : poly.level < raw.L) (level : other.level = poly.level)
    (same : ∀ i, i ≤ poly.level → other.limb i = poly.limb i) (GATHERlimb otherGATHER : Nat → Limb)
    (DIGITlimb otherDIGIT : Nat → Nat → Limb) {d : Nat} (live : d < digits.num_d (poly.level + 1))
    {id : Nat} (target : id ∈ digits.targets poly.level d) {idx : Nat} (column : idx < raw.N) :
    other.modup (SetupConstants raw) digits tables otherGATHER otherDIGIT d
        (digits.pos_in_digit d id) idx =
      poly.modup (SetupConstants raw) digits tables GATHERlimb DIGITlimb d
        (digits.pos_in_digit d id) idx := by
  have inside : d < digits.dnum := live.trans_le (digits.num_d_le _)
  have occupied := digits.size_pos live
  obtain ⟨place, own⟩ := digits.pos_in_digit_target chain target
  have used : digits.primeid_digit_to d (digits.pos_in_digit d id) < poly.level + 1 ∨
      raw.L ≤ digits.primeid_digit_to d (digits.pos_in_digit d id) := by
    rw [own]
    rcases digits.mem_targets.mp target with special | regular <;> omega
  have word : idx < (SetupConstants raw).N := column
  rw [RNSPoly.modup, RNSPoly.modup, level, if_pos ⟨inside, occupied⟩, if_pos ⟨inside, occupied⟩,
    onLimbs_inside _ _ place, onLimbs_inside _ _ place, launch_inside _ _ word,
    launch_inside _ _ word, own]
  apply generated.NTT_congr _ column
  intro position below
  have converts : digits.pos_in_digit d id < digits.num_primeid_digit_to d (poly.level + 1 - 1) := by
    rwa [Nat.add_sub_cancel]
  have thread : position < (SetupConstants raw).N / 64 * 64 := by
    rwa [whole_blocks generated]
  dsimp only [DecompAndModUpConv]
  rw [if_pos ⟨converts, used⟩, if_pos ⟨converts, used⟩, launch_inside _ _ thread,
    launch_inside _ _ thread]
  have sums : ∀ first second : Nat → Limb,
      (∀ i, i < digits.size (poly.level + 1) d → first i position = second i position) →
      WordReduction.wrappingSum (2 ^ 128) (DecompTerm (SetupConstants raw) digits tables .shoup
          (poly.level + 1) d first (digits.primeid_digit_to d (digits.pos_in_digit d id)) position)
          (digits.num_primeid_digit_from d (poly.level + 1 - 1)) =
        WordReduction.wrappingSum (2 ^ 128) (DecompTerm (SetupConstants raw) digits tables .shoup
          (poly.level + 1) d second (digits.primeid_digit_to d (digits.pos_in_digit d id)) position)
          (digits.num_primeid_digit_from d (poly.level + 1 - 1)) := by
    intro first second words
    rw [WordReduction.wrappingSum, WordReduction.wrappingSum]
    apply List.foldl_ext
    intro sum i member
    have bound := List.mem_range.mp member
    rw [Nat.add_sub_cancel, digits.num_primeid_digit_from_eq] at bound
    simp only [DecompTerm, DecompBuffer, words i bound]
  rw [sums]
  intro i bound
  have row : digits.start d + i ≤ poly.level := by
    rw [Digits.size] at bound
    omega
  have thread' : position < (SetupConstants raw).N := below
  rw [launch_inside _ _ thread', launch_inside _ _ thread', same _ row]

omit generated in
/-- A live prime outside a digit is one of its targets. -/
theorem other_target {level i id : Nat} (chain : level < raw.L) (live : raw.Live level id)
    (own : digits.primeid_digit id ≠ some i) : id ∈ digits.targets level i := by
  rw [digits.mem_targets]
  rcases live with below | special
  · refine Or.inr ⟨below, fun equal => own ?_⟩
    rw [digits.primeid_digit_eq (by omega), equal]
  · exact Or.inl special

/-- These are the limbs and the digits of a polynomial that no old word enters. -/
def digitsOf (poly : RNSPoly) : DigitPoly where
  limb := poly.limb
  DIGITlimb := poly.modup (SetupConstants raw) digits tables (fun _ _ => 0) fun _ _ _ => 0

/-- A source of the rotation has the operands of the polynomial that it was made from. -/
theorem operand_digitsOf (chain : poly.level < raw.L) (level : other.level = poly.level)
    (same : ∀ i, i ≤ poly.level → other.limb i = poly.limb i) {limb : Nat → Limb}
    (rows : ∀ i, i ≤ poly.level → limb i = poly.limb i) (GATHERlimb : Nat → Limb)
    (DIGITlimb : Nat → Nat → Limb) {i : Nat} (inside : i < digits.num_d (poly.level + 1)) {id : Nat}
    (live : raw.Live poly.level id) {idx : Nat} (column : idx < raw.N) :
    digits.operand
        ⟨limb, other.modup (SetupConstants raw) digits tables GATHERlimb DIGITlimb⟩ i id idx =
      digits.operand (digitsOf digits tables poly) i id idx := by
  rw [Digits.operand, Digits.operand]
  by_cases own : digits.primeid_digit id = some i
  · have regular := digits.regular_of_digit own
    have low : id ≤ poly.level := by
      rcases live with below | special <;> omega
    rw [if_pos own, if_pos own]
    exact congrFun (rows id low) idx
  · rw [if_neg own, if_neg own]
    exact modup_congr generated digits tables chain level same (fun _ _ => 0) GATHERlimb
      (fun _ _ _ => 0) DIGITlimb inside (other_target digits chain live own) column

theorem digitsOf_reduced (canonical : poly.Canonical raw) :
    digits.Reduced poly.level (digitsOf digits tables poly) := by
  intro i inside id live idx column
  have chain := canonical.level
  rw [Digits.operand]
  by_cases own : digits.primeid_digit id = some i
  · have regular := digits.regular_of_digit own
    have low : id ≤ poly.level := by
      rcases live with below | special <;> omega
    rw [if_pos own, raw.prime_q regular]
    exact canonical.limb id low idx column
  · rw [if_neg own]
    exact modup_lt generated digits tables chain (fun _ _ => 0) (fun _ _ _ => 0) inside
      (other_target digits chain live own) column

end Digits

/-- The operand has reduced words at one level, and its slots divide those of the ring. -/
structure DeviceCiphertext.Rotatable {Key Factor : Type} (raw : RawParams)
    (ct : DeviceCiphertext Key Factor) : Prop where
  c0 : ct.c0.Canonical raw
  c1 : ct.c1.Canonical raw
  level : ct.c0.level = ct.c1.level
  positive : 0 < ct.slots
  divides : ct.slots ∣ raw.N / 2

/-- The launches have all their threads, and the scratch polynomials own all special limbs or none. -/
structure Scratch.Ready (raw : RawParams) (level : Nat) (scratch : Scratch) : Prop where
  fused : Covers scratch.around.fused (raw.K + (level + 1)) raw.N
  aux2 : scratch.around.aux2.specialLimbs = 0 ∨ scratch.around.aux2.specialLimbs = raw.K
  auxilarPoly : ∀ i component, (scratch.auxilarPoly i component).specialLimbs = 0 ∨
    (scratch.auxilarPoly i component).specialLimbs = raw.K

/-- This is a rotation in the extended basis that keeps the scaled first component. -/
structure Rotation {Key Factor : Type} {raw : RawParams} (digits : Digits raw)
    (tables : ModUpTables) (ct : DeviceCiphertext Key Factor) (key : KeySwitchingKey × Nat)
    (out : DeviceCiphertext Key Factor) : Prop where
  data : ct.withHalves out.half = out
  level : ∀ component, (out.half component).level = ct.c1.level
  extended : ∀ component, (out.half component).Extended raw
  word : ∀ component inverse, Undoes raw key.2 inverse → ∀ id slot, raw.Live ct.c1.level id →
    slot < raw.N → (out.half component).word raw id slot =
      (digits.rotatedResidue ct.c1.level (digitsOf digits tables ct.c1) key.1 ct.c0 component id
        (automorph_slot raw.logN inverse slot)).val

section Fused

variable {Key Factor : Type} {raw : RawParams} (generated : raw.Generated)
  (narrow : raw.logN ≤ 30) {digits : Digits raw} {tables : ModUpTables}
  {ct : DeviceCiphertext Key Factor} (rotatable : ct.Rotatable raw)

include generated narrow rotatable

/-- The fused launch leaves a rotation in the result of each of its keys. -/
theorem fused_rotation {around : Surroundings}
    (covers : Covers around.fused (raw.K + (ct.c1.level + 1)) raw.N) {rotated : List Rotated}
    (distinct : (rotated.map Rotated.result).Nodup)
    (keysReduced : ∀ entry ∈ rotated, ∀ component,
      digits.Reduced ct.c1.level (entry.ksk.half component))
    (below : ∀ entry ∈ rotated, entry.actual_index < raw.N / 2) {source : DigitPoly}
    (operands : ∀ i, i < digits.num_d (ct.c1.level + 1) → ∀ id, raw.Live ct.c1.level id →
      ∀ idx, idx < raw.N → digits.operand source i id idx =
        digits.operand (digitsOf digits tables ct.c1) i id idx)
    {c0 : RNSPoly} (canonical : c0.Canonical raw) (atLevel : c0.level = ct.c1.level)
    (scaled : ∀ id idx, raw.Live ct.c1.level id → c0.scaled raw id idx = ct.c0.scaled raw id idx)
    {results : Nat → Component → RNSPoly} {entry : Rotated} (mem : entry ∈ rotated)
    (levels : ∀ component, (results entry.result component).level = ct.c1.level)
    (allocated : ∀ component, (results entry.result component).specialLimbs = 0 ∨
      (results entry.result component).specialLimbs = raw.K) :
    Rotation digits tables ct (entry.ksk, entry.actual_index)
      (ct.withHalves (hoistedRotationFused digits (SetupConstants raw) around rotated results source
        c0 ct.c1.level entry.result)) := by
  have listed : entry.result ∈ rotated.map Rotated.result := List.mem_map_of_mem mem
  have reduced : digits.Reduced ct.c1.level source := by
    intro i inside id live idx column
    rw [operands i inside id live idx column]
    exact digitsOf_reduced generated digits tables rotatable.c1 i inside id live idx column
  have halves : ∀ component, (ct.withHalves (hoistedRotationFused digits (SetupConstants raw) around
      rotated results source c0 ct.c1.level entry.result)).half component =
        hoistedRotationFused digits (SetupConstants raw) around rotated results source c0 ct.c1.level
          entry.result component := by
    intro component
    cases component <;> rfl
  have shape := fun component => hoistedRotationFused_extended digits around results source c0
    ct.c1.level listed (allocated component)
  constructor
  · rfl
  · intro component
    rw [halves]
    exact (shape component).1.trans (levels component)
  · intro component
    rw [halves]
    exact (shape component).2
  · intro component inverse undoes id slot live inside
    have rotation : ∀ entry ∈ rotated, entry.actual_index ≠ 2 * raw.N - 1 := by
      intro other member
      have bound := below other member
      omega
    have word := hoistedRotationFused_word generated narrow rotatable.c1.level reduced canonical
      atLevel.ge around distinct keysReduced rotation covers results mem undoes component live inside
    have column : automorph_slot raw.logN inverse slot < raw.N := automorph_slot_lt (by omega) _ _
    have dots : digits.dot ct.c1.level source (entry.ksk.half component) id
        (automorph_slot raw.logN inverse slot) =
          digits.dot ct.c1.level (digitsOf digits tables ct.c1) (entry.ksk.half component) id
            (automorph_slot raw.logN inverse slot) := by
      apply Finset.sum_congr rfl
      intro i member
      rw [operands i (Finset.mem_range.mp member) id live _ column]
    rw [halves, word]
    cases component with
    | c0 => simp only [Digits.rotatedResidue, dots, scaled id _ live]
    | c1 => simp only [Digits.rotatedResidue, dots]

end Fused

/-- Two ciphertexts have the same data and the same words in their limbs in use. -/
structure Same {Key Factor : Type} (raw : RawParams) (left right : DeviceCiphertext Key Factor) :
    Prop where
  data : left.withHalves right.half = right
  level : ∀ component, (right.half component).level = (left.half component).level
  modUp : ∀ component, (right.half component).modUp = (left.half component).modUp
  word : ∀ component id slot, id ≤ (left.half component).level ∨
      (left.half component).modUp = true ∧ raw.L ≤ id ∧ id < raw.L + raw.K → slot < raw.N →
    (right.half component).word raw id slot = (left.half component).word raw id slot

section Results

variable {Key Factor : Type} {raw : RawParams} (generated : raw.Generated)
  {digits : Digits raw} {tables : ModUpTables} {ct : DeviceCiphertext Key Factor}
  (chain : ct.c1.level < raw.L) {key : KeySwitchingKey × Nat}
  {first second : DeviceCiphertext Key Factor}

theorem Rotation.same (left : Rotation digits tables ct key first)
    (right : Rotation digits tables ct key second) : Same raw first second where
  data := by
    have own := right.data
    rw [← left.data]
    exact own
  level := by
    intro component
    rw [left.level, right.level]
  modUp := by
    intro component
    rw [(left.extended component).1, (right.extended component).1]
  word := by
    intro component id slot used inside
    obtain ⟨inverse, undoes⟩ := exists_undoes raw key.2
    have live : raw.Live ct.c1.level id := by
      rw [left.level] at used
      exact used.imp_right And.right
    rw [left.word component inverse undoes id slot live inside,
      right.word component inverse undoes id slot live inside]

include generated chain

theorem Rotation.canonical (rotation : Rotation digits tables ct key first) (component : Component) :
    (first.half component).Canonical raw := by
  obtain ⟨inverse, undoes⟩ := exists_undoes raw key.2
  have level := rotation.level component
  apply RNSPoly.canonical_of_word (level ▸ chain) _ (Or.inr (rotation.extended component).2)
  intro id slot live inside
  rw [level] at live
  have positive : NeZero (raw.prime id) := ⟨(generated.modulus (live.inside chain)).pos.ne'⟩
  rw [rotation.word component inverse undoes id slot live inside]
  exact ZMod.val_lt _

/-- The mod-down of a rotation succeeds. -/
theorem Rotation.modDown (rotation : Rotation digits tables ct key first)
    (aux : Component → Nat → Limb) :
    ∃ out, first.modDown (SetupConstants raw) aux = some out ∧ first.withHalves out.half = out ∧
      (∀ component, (out.half component).level = ct.c1.level ∧ (out.half component).modUp = false) ∧
      ∀ component j, j ≤ ct.c1.level → ∀ i, i < raw.N → (out.half component).limb j i =
        moddown_fusion (SetupConstants raw) .shoup j ((first.half component).limb j)
          ((SetupConstants raw).NTT j (raw.lifted true (first.half component))) i := by
  have halves := fun component => moddown_words generated true .shoup false
    (rotation.canonical generated chain component) (rotation.extended component) (aux component)
  obtain ⟨c0, ran0, level0, modUp0, words0⟩ := halves .c0
  obtain ⟨c1, ran1, level1, modUp1, words1⟩ := halves .c1
  have own0 := rotation.level .c0
  have own1 := rotation.level .c1
  refine ⟨{ first with c0, c1 }, ?_, rfl, ?_, ?_⟩
  · have start0 : first.c0.moddown (SetupConstants raw) .shoup true false (aux .c0) = some c0 := ran0
    have start1 : first.c1.moddown (SetupConstants raw) .shoup true false (aux .c1) = some c1 := ran1
    rw [DeviceCiphertext.modDown, start0, start1]
    rfl
  · intro component
    cases component with
    | c0 => exact ⟨level0.trans own0, modUp0⟩
    | c1 => exact ⟨level1.trans own1, modUp1⟩
  · intro component j inside i bound
    cases component with
    | c0 => exact words0 j (own0 ▸ inside) i bound
    | c1 => exact words1 j (own1 ▸ inside) i bound

/-- The mod-down of a rotation does not depend on the scratch words. -/
theorem Rotation.modDown_same (left : Rotation digits tables ct key first)
    (right : Rotation digits tables ct key second) {aux other : Component → Nat → Limb}
    {one two : DeviceCiphertext Key Factor}
    (ranOne : first.modDown (SetupConstants raw) aux = some one)
    (ranTwo : second.modDown (SetupConstants raw) other = some two) : Same raw one two := by
  obtain ⟨one', madeOne, dataOne, shapeOne, wordsOne⟩ := left.modDown generated chain aux
  obtain ⟨two', madeTwo, dataTwo, shapeTwo, wordsTwo⟩ := right.modDown generated chain other
  obtain rfl : one' = one := Option.some.inj (madeOne.symm.trans ranOne)
  obtain rfl : two' = two := Option.some.inj (madeTwo.symm.trans ranTwo)
  have same := left.same right
  constructor
  · rw [← dataOne, ← dataTwo, ← same.data]
    rfl
  · intro component
    rw [(shapeOne component).1, (shapeTwo component).1]
  · intro component
    rw [(shapeOne component).2, (shapeTwo component).2]
  · intro component id slot used inside
    rw [(shapeOne component).1, (shapeOne component).2] at used
    have low : id ≤ ct.c1.level := used.resolve_right fun extended =>
      Bool.false_ne_true extended.1
    have regular : id < raw.L := low.trans_lt chain
    have words : ∀ other, raw.Live ct.c1.level other → ∀ i, i < raw.N →
        (second.half component).word raw other i = (first.half component).word raw other i := by
      intro other live i bound
      apply same.word component other i _ bound
      rw [left.level, (left.extended component).1]
      exact live.imp_right fun special => ⟨rfl, special⟩
    have limbs : (second.half component).limb id slot = (first.half component).limb id slot := by
      have word := words id (Or.inl low) slot inside
      rwa [RNSPoly.word, RNSPoly.word, if_pos regular, if_pos regular] at word
    have specials : ∀ k, k < raw.K → ∀ i, i < raw.N →
        (second.half component).special k i = (first.half component).special k i := by
      intro k below i bound
      have word := words (raw.L + k) (Or.inr ⟨by omega, by omega⟩) i bound
      rwa [RNSPoly.word, RNSPoly.word, if_neg (by omega), if_neg (by omega),
        Nat.add_sub_cancel_left] at word
    rw [RNSPoly.word, RNSPoly.word, if_pos regular, if_pos regular,
      wordsOne component id low slot inside, wordsTwo component id low slot inside]
    simp only [moddown_fusion, limbs, NTT_lifted_congr generated true id specials inside]

end Results

end Fideslib.KeySwitch
