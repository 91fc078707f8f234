/-
This file translates the level bookkeeping of API ciphertexts.
-/

import Fideslib.Library.Run
import Fideslib.Transfer.RoundTrip

namespace Fideslib.Transfer

inductive ScalingTechnique where
  | fixedManual
  | fixedAuto
  | flexibleAuto
  | flexibleAutoExt
  deriving DecidableEq

/-- A context converts levels with its multiplicative depth. -/
structure ApiContext where
  scheme : Scheme
  multiplicativeDepth : BitVec 32

/-- OpenFHE generates one prime more than the levels need, and one more for this technique. -/
def chainLength (technique : ScalingTechnique) (depth : Nat) : Nat :=
  depth + 1 + if technique = .flexibleAutoExt then 1 else 0

/-- A context is generated from parameters or restored from a file. -/
inductive Origin where
  | genCryptoContext
  | deserializeFromFile
  deriving DecidableEq

/-- A generated context takes the depth of its parameters, and a restored one counts the primes of
its chain. -/
def Origin.context (scheme : Scheme) (depth : Nat) : Origin → ApiContext
  | .genCryptoContext => ⟨scheme, BitVec.ofNat 32 depth⟩
  | .deserializeFromFile => ⟨scheme, BitVec.ofNat 32 (scheme.chain.length - 1)⟩

/-- An API ciphertext has a host copy and, while it is loaded, a device ciphertext. -/
structure CiphertextImpl (Residues Factor : Type) where
  cpu : HostCiphertext Residues Factor
  gpu : Option (Ciphertext Residues Factor)

variable {Residues Factor : Type} (context : ApiContext)

def DcrtPoly.dropLastElements (count : Nat) (poly : DcrtPoly Residues) : DcrtPoly Residues where
  moduli := poly.moduli.take (poly.moduli.length - count)
  elements := poly.elements.take (poly.elements.length - count)
  complete := by simp [poly.complete]

/-- The host path drops towers only if there are too many of them and always sets the level. -/
def HostCiphertext.setLevel (level : BitVec 64) (ct : HostCiphertext Residues Factor) :
    HostCiphertext Residues Factor :=
  let currentTowers := BitVec.ofNat 64 ct.towers
  let targetTowers := currentTowers + ct.level - level
  if targetTowers < currentTowers then
    let towersToDrop := (currentTowers - targetTowers).toNat
    { ct with
      c0 := ct.c0.dropLastElements towersToDrop
      c1 := ct.c1.dropLastElements towersToDrop
      sameBasis := by simp [DcrtPoly.dropLastElements, ct.sameBasis]
      level := level }
  else { ct with level := level }

namespace CiphertextImpl

/-- The device counts the remaining primes, so its level is taken from the depth. -/
def getLevel (ct : CiphertextImpl Residues Factor) : BitVec 64 :=
  match ct.gpu with
  | none => ct.cpu.level
  | some device =>
      (context.multiplicativeDepth - BitVec.ofInt 32 device.getLevel).setWidth 64

/-- The device path converts the level to an int and drops limbs. -/
def setLevel (level : BitVec 64) (ct : CiphertextImpl Residues Factor) :
    CiphertextImpl Residues Factor :=
  match ct.gpu with
  | none => { ct with cpu := ct.cpu.setLevel level }
  | some device =>
      let kept := ((context.multiplicativeDepth.setWidth 64 - level).setWidth 32).toInt
      { ct with gpu := some (device.dropToLevel kept) }

def load (pool0 pool1 : RnsPoly Residues) (ct : CiphertextImpl Residues Factor) :
    CiphertextImpl Residues Factor :=
  match ct.gpu with
  | none =>
      { ct with
        gpu := some (Ciphertext.load context.scheme (getRawCipherText ct.cpu) pool0 pool1) }
  | some _ => ct

/-- A client reads the host copy after it was brought up to date. -/
def readBack [Zero Residues] (ct : CiphertextImpl Residues Factor) :
    Option (HostCiphertext Residues Factor) :=
  match ct.gpu with
  | none => some ct.cpu
  | some device => ensureUpToDateCpuCopy context.scheme ct.cpu device

def unload [Zero Residues] (ct : CiphertextImpl Residues Factor) :
    Option (CiphertextImpl Residues Factor) :=
  (ct.readBack context).map fun cpu => ⟨cpu, none⟩

/-- The elements and the serialization refresh the host copy of a loaded ciphertext. -/
def refresh [Zero Residues] (ct : CiphertextImpl Residues Factor) :
    Option (CiphertextImpl Residues Factor) :=
  (ct.readBack context).map fun cpu => { ct with cpu := cpu }

/-- A decryption overwrites the host copy, or a fresh encryption at the level of the device
ciphertext if the copy has too few towers. -/
def decrypt (encrypt : BitVec 32 → HostCiphertext Residues Factor)
    (ct : CiphertextImpl Residues Factor) : Option (CiphertextImpl Residues Factor) :=
  match ct.gpu with
  | none => some ct
  | some device => do
      let raw ← device.store context.scheme
      let shell := if ct.cpu.towers < raw.numRes then
          encrypt (context.multiplicativeDepth - BitVec.ofInt 32 device.getLevel)
        else ct.cpu
      let cpu ← getOpenFheCipherText context.scheme shell raw
      some { ct with cpu := cpu }

end CiphertextImpl

/-- These are the calls on one ciphertext, with the results of OpenFHE and of the kernels. -/
inductive Action (Residues Factor : Type) where
  | load (pool0 pool1 : RnsPoly Residues)
  | unload
  | refresh
  | decrypt (encrypt : BitVec 32 → HostCiphertext Residues Factor)
  | setLevel (level : BitVec 64)
  | evaluateHost (result : HostCiphertext Residues Factor)
  | evaluateDevice (result : Ciphertext Residues Factor)
  | deserialize (result : HostCiphertext Residues Factor)

/-- A step performs one call that does not leave the allocated towers. -/
def Action.step [Zero Residues] :
    Action Residues Factor → CiphertextImpl Residues Factor → CiphertextImpl Residues Factor → Prop
  | .load pool0 pool1, before, after => after = before.load context pool0 pool1
  | .unload, before, after => before.unload context = some after
  | .refresh, before, after => before.refresh context = some after
  | .decrypt encrypt, before, after => before.decrypt context encrypt = some after
  | .setLevel level, before, after => after = before.setLevel context level
  | .evaluateHost result, before, after =>
      before.gpu = none ∧ after = { before with cpu := result }
  | .evaluateDevice result, before, after =>
      before.gpu.isSome ∧ after = { before with gpu := some result }
  | .deserialize result, _, after => after = ⟨result, none⟩

/-- A host ciphertext is sound in the regular basis. -/
def HostCiphertext.Regular (scheme : Scheme) (ct : HostCiphertext Residues Factor) : Prop :=
  ∃ regular, ct.Sound scheme regular false

/-- A device ciphertext holds some regular towers and no special ones. -/
def Ciphertext.Regular (scheme : Scheme) (device : Ciphertext Residues Factor) : Prop :=
  ∃ regular, 0 < regular ∧ regular ≤ scheme.chain.length ∧ device.Holds scheme regular false

/-- Results stay in the regular basis, levels stay on the chain, and the level of an unloaded
object is never set below its current one. -/
def Action.Allowed : Action Residues Factor → CiphertextImpl Residues Factor → Prop
  | .decrypt encrypt, _ => ∀ level, level.toNat < context.scheme.chain.length →
      (encrypt level).Sound context.scheme (context.scheme.chain.length - level.toNat) false
  | .setLevel level, before => level.toNat < context.scheme.chain.length ∧
      (before.gpu = none → before.cpu.level.toNat ≤ level.toNat)
  | .evaluateHost result, _ | .deserialize result, _ => result.Regular context.scheme
  | .evaluateDevice result, _ => result.Regular context.scheme
  | _, _ => True

/-- The level bookkeeping meets its contract at one ciphertext. -/
structure LevelContract [Zero Residues] (context : ApiContext)
    (ct : CiphertextImpl Residues Factor) : Prop where
  reads : ∃ back, ct.readBack context = some back ∧ back.level = ct.getLevel context ∧
    0 < back.towers ∧ back.towers ≤ context.scheme.chain.length ∧
    back.level = BitVec.ofNat 64 (context.scheme.chain.length - back.towers)
  loads : ∀ pool0 pool1, (ct.load context pool0 pool1).readBack context = ct.readBack context ∧
    (ct.load context pool0 pool1).getLevel context = ct.getLevel context
  sets : ∀ level, level.toNat < context.scheme.chain.length →
    (ct.getLevel context).toNat ≤ level.toNat →
    (ct.setLevel context level).readBack context =
        (ct.readBack context).map (HostCiphertext.setLevel level) ∧
      (ct.setLevel context level).getLevel context = level
  keeps : ∀ level, ct.gpu.isSome → level.toNat ≤ (ct.getLevel context).toNat →
    ct.setLevel context level = ct
  subtracts : (∀ device, ct.gpu = some device →
      device.getLevel ≤ context.multiplicativeDepth.toNat) ∧
    (ct.getLevel context).toNat ≤ context.multiplicativeDepth.toNat ∧
    ct.cpu.level.toNat ≤ context.multiplicativeDepth.toNat ∧
    ∀ level : BitVec 64, level.toNat < context.scheme.chain.length →
      level.toNat ≤ context.multiplicativeDepth.toNat

variable {context} {scheme : Scheme} {regular : Nat}

theorem HostCiphertext.Sound.level_toNat {ct : HostCiphertext Residues Factor}
    (sound : ct.Sound scheme regular false) : ct.level.toNat = scheme.chain.length - regular := by
  have bounded := scheme.bounded
  rw [sound.level, BitVec.toNat_ofNat, Nat.mod_eq_of_lt (by omega)]

theorem HostCiphertext.Sound.accounts {ct : HostCiphertext Residues Factor}
    (sound : ct.Sound scheme regular false) : ct.Accounts scheme false := by
  have within := sound.within
  unfold HostCiphertext.Accounts
  rw [sound.level, sound.towers, ← BitVec.ofNat_add]
  congr 1
  have rows : scheme.specialRows false = 0 := rfl
  omega

/-- A sound host copy has the moduli of every shorter regular ciphertext. -/
theorem HostCiphertext.Sound.take_moduli {ct : HostCiphertext Residues Factor} {fewer : Nat}
    (sound : ct.Sound scheme regular false) (shorter : fewer ≤ regular) :
    ct.c0.moduli.take (fewer + scheme.specialRows false) = scheme.basis fewer false := by
  rw [sound.moduli]
  simp [Scheme.basis, Scheme.specialRows, List.take_take, shorter]

/-- A sound host copy fits every regular download. -/
theorem HostCiphertext.Sound.fitsDownload {ct : HostCiphertext Residues Factor} {towers : Nat}
    (sound : ct.Sound scheme regular false) : ct.FitsDownload scheme towers false := by
  have rows : scheme.specialRows false = 0 := rfl
  have count := sound.towers
  unfold HostCiphertext.FitsDownload
  split
  case isTrue => exact Or.inl rfl
  case isFalse enough => exact ⟨sound.take_moduli (by omega), sound.accounts⟩

theorem HostCiphertext.Sound.fitsOverwrite {ct : HostCiphertext Residues Factor} {towers : Nat}
    (sound : ct.Sound scheme regular false) : ct.FitsOverwrite scheme towers false := by
  have rows : scheme.specialRows false = 0 := rfl
  have count := sound.towers
  unfold HostCiphertext.FitsOverwrite
  split
  case isTrue => exact ⟨rfl, sound.accounts⟩
  case isFalse enough => exact ⟨sound.take_moduli (by omega), sound.accounts⟩

variable {device : Ciphertext Residues Factor}

theorem Restores.sound {back : HostCiphertext Residues Factor}
    (restores : Restores scheme regular false device back) (positive : 0 < regular)
    (within : regular ≤ scheme.chain.length) : back.Sound scheme regular false :=
  ⟨positive, within, restores.moduli, restores.level⟩

/-- A level on the chain leaves as many towers as there are primes after it. -/
theorem HostCiphertext.Sound.setLevel {ct : HostCiphertext Residues Factor}
    (sound : ct.Sound scheme regular false) {level : BitVec 64} {fewer : Nat}
    (leaves : level.toNat + fewer = scheme.chain.length) (shorter : fewer ≤ regular) :
    ct.setLevel level =
      { ct with
        c0 := ct.c0.dropLastElements (regular - fewer)
        c1 := ct.c1.dropLastElements (regular - fewer)
        sameBasis := by simp [DcrtPoly.dropLastElements, ct.sameBasis]
        level := level } := by
  have bounded := scheme.bounded
  have within := sound.within
  have count : ct.towers = regular := sound.towers
  have given : level = BitVec.ofNat 64 (scheme.chain.length - fewer) := by
    apply BitVec.eq_of_toNat_eq
    rw [BitVec.toNat_ofNat, Nat.mod_eq_of_lt (by omega)]
    omega
  have target : BitVec.ofNat 64 ct.towers + ct.level - level = BitVec.ofNat 64 fewer := by
    rw [count, sound.level, given, sub_eq_iff_eq_add, ← BitVec.ofNat_add, ← BitVec.ofNat_add]
    congr 1
    omega
  have drops : (BitVec.ofNat 64 ct.towers - BitVec.ofNat 64 fewer).toNat = regular - fewer := by
    rw [count, BitVec.toNat_sub_of_le, BitVec.toNat_ofNat, BitVec.toNat_ofNat,
      Nat.mod_eq_of_lt (by omega), Nat.mod_eq_of_lt (by omega)]
    rw [BitVec.le_def, BitVec.toNat_ofNat, BitVec.toNat_ofNat, Nat.mod_eq_of_lt (by omega),
      Nat.mod_eq_of_lt (by omega)]
    exact shorter
  unfold HostCiphertext.setLevel
  simp only [target, drops]
  split
  case isTrue => rfl
  case isFalse equal =>
    have same : regular - fewer = 0 := by
      rw [BitVec.lt_def, count, BitVec.toNat_ofNat, BitVec.toNat_ofNat,
        Nat.mod_eq_of_lt (by omega), Nat.mod_eq_of_lt (by omega)] at equal
      omega
    have still : ∀ poly : DcrtPoly Residues, poly.dropLastElements 0 = poly := by
      intro poly
      ext1
      · simp [DcrtPoly.dropLastElements]
      · simp [DcrtPoly.dropLastElements]
    ext1
    · exact (same ▸ still ct.c0).symm
    · exact (same ▸ still ct.c1).symm
    all_goals rfl

@[simp] theorem HostCiphertext.setLevel_level (level : BitVec 64)
    (ct : HostCiphertext Residues Factor) : (ct.setLevel level).level = level := by
  unfold HostCiphertext.setLevel
  dsimp only
  split <;> rfl

/-- A host ciphertext whose level is set on the chain stays sound. -/
theorem HostCiphertext.Sound.setLevel_sound {ct : HostCiphertext Residues Factor}
    (sound : ct.Sound scheme regular false) {level : BitVec 64} {fewer : Nat}
    (leaves : level.toNat + fewer = scheme.chain.length) (positive : 0 < fewer)
    (shorter : fewer ≤ regular) : (ct.setLevel level).Sound scheme fewer false := by
  have bounded := scheme.bounded
  have within := sound.within
  have count : ct.c0.moduli.length = regular := by
    rw [← ct.c0.complete]
    exact sound.towers
  have kept : regular - (regular - fewer) = fewer := by omega
  rw [sound.setLevel leaves shorter]
  constructor
  case positive => exact positive
  case within => omega
  case moduli =>
    change ct.c0.moduli.take (ct.c0.moduli.length - (regular - fewer)) = _
    rw [count, kept]
    exact sound.take_moduli shorter
  case level =>
    apply BitVec.eq_of_toNat_eq
    rw [BitVec.toNat_ofNat, Nat.mod_eq_of_lt (by omega)]
    change level.toNat = _
    omega

theorem RnsPoly.Holds.dropToLevel {poly : RnsPoly Residues}
    (holds : poly.Holds scheme regular false) {fewer : Nat} (shorter : fewer ≤ regular) :
    (poly.dropToLevel ((fewer : Int) - 1)).Holds scheme fewer false := by
  have level := holds.level
  unfold RnsPoly.dropToLevel
  split
  case isTrue =>
    constructor
    case level => rfl
    case limbs => exact shorter.trans holds.limbs
    case modUp => exact holds.modUp
    case specials =>
      intro impossible
      cases impossible
  case isFalse kept =>
    have same : fewer = regular := by omega
    exact same ▸ holds

/-- Both polynomials are dropped together. -/
theorem Ciphertext.Holds.dropToLevel_eq (holds : device.Holds scheme regular false) (level : Int) :
    device.dropToLevel level =
      { device with c0 := device.c0.dropToLevel level, c1 := device.c1.dropToLevel level } := by
  have same : device.c1.level = device.c0.level := holds.c1.level.trans holds.c0.level.symm
  unfold Ciphertext.dropToLevel
  split
  case isTrue => rfl
  case isFalse kept => simp [RnsPoly.dropToLevel, same, kept]

/-- A dropped device ciphertext holds fewer towers. -/
theorem Ciphertext.Holds.dropToLevel (holds : device.Holds scheme regular false) {fewer : Nat}
    (shorter : fewer ≤ regular) :
    (device.dropToLevel ((fewer : Int) - 1)).Holds scheme fewer false := by
  rw [holds.dropToLevel_eq]
  exact ⟨holds.c0.dropToLevel shorter, holds.c1.dropToLevel shorter⟩

/-- A drop to a level that is not below the current one changes nothing. -/
theorem Ciphertext.Holds.dropToLevel_above (holds : device.Holds scheme regular false) {level : Int}
    (above : (regular : Int) - 1 ≤ level) : device.dropToLevel level = device := by
  have stored := holds.c0.level
  unfold Ciphertext.dropToLevel
  rw [if_neg (by omega)]

/-- A drop keeps the limbs. -/
theorem RnsPoly.dropToLevel_rows (poly : RnsPoly Residues) (level : Int) {fewer : Nat}
    (shorter : fewer ≤ regular) :
    (poly.dropToLevel level).rows scheme fewer false =
      (poly.rows scheme regular false).take fewer := by
  unfold RnsPoly.dropToLevel
  split <;> simp [RnsPoly.rows, Scheme.specialRows, List.take_take, shorter]

/-- Setting a level on the host and on the device drops the same towers. -/
theorem Restores.setLevel {back : HostCiphertext Residues Factor}
    (holds : device.Holds scheme regular false)
    (restores : Restores scheme regular false device back) (positive : 0 < regular)
    (within : regular ≤ scheme.chain.length) {level : BitVec 64} {fewer : Nat}
    (leaves : level.toNat + fewer = scheme.chain.length) (shorter : fewer ≤ regular) :
    Restores scheme fewer false (device.dropToLevel ((fewer : Int) - 1)) (back.setLevel level) := by
  have bounded := scheme.bounded
  have sound := restores.sound positive within
  have count0 : back.c0.elements.length = regular := sound.towers
  have count1 : back.c1.elements.length = regular := by
    rw [back.c1.complete, back.sameBasis, ← back.c0.complete, count0]
  have kept : regular - (regular - fewer) = fewer := by omega
  rw [sound.setLevel leaves shorter, holds.dropToLevel_eq]
  constructor
  case moduli =>
    change back.c0.moduli.take (back.c0.moduli.length - (regular - fewer)) = _
    rw [← back.c0.complete, count0, kept]
    exact sound.take_moduli shorter
  case c0 =>
    change back.c0.elements.take (back.c0.elements.length - (regular - fewer)) = _
    rw [count0, kept, restores.c0]
    exact (device.c0.dropToLevel_rows _ shorter).symm
  case c1 =>
    change back.c1.elements.take (back.c1.elements.length - (regular - fewer)) = _
    rw [count1, kept, restores.c1]
    exact (device.c1.dropToLevel_rows _ shorter).symm
  case level =>
    apply BitVec.eq_of_toNat_eq
    rw [BitVec.toNat_ofNat, Nat.mod_eq_of_lt (by omega)]
    change level.toNat = _
    omega
  case scalingFactor => exact restores.scalingFactor
  case noiseScaleDeg => exact restores.noiseScaleDeg
  case keyTag => exact restores.keyTag
  case slots => exact restores.slots

/-- The depth of the context counts the levels of the chain. -/
def ApiContext.Agrees (context : ApiContext) : Prop :=
  context.multiplicativeDepth.toNat + 1 = context.scheme.chain.length

/-- With the right depth the level of a device ciphertext counts the consumed primes. -/
theorem ApiContext.Agrees.deviceLevel (agrees : context.Agrees)
    (holds : device.Holds context.scheme regular false) (positive : 0 < regular)
    (within : regular ≤ context.scheme.chain.length) :
    context.multiplicativeDepth - BitVec.ofInt 32 device.getLevel =
      BitVec.ofNat 32 (context.scheme.chain.length - regular) := by
  have bounded := context.scheme.bounded
  have depth : context.multiplicativeDepth =
      BitVec.ofNat 32 (context.scheme.chain.length - 1) := by
    apply BitVec.eq_of_toNat_eq
    rw [BitVec.toNat_ofNat, Nat.mod_eq_of_lt (by omega), ← agrees]
    rfl
  have level : device.getLevel = ((regular - 1 : Nat) : Int) := by
    have stored := holds.c0.level
    unfold Ciphertext.getLevel
    omega
  rw [depth, level, BitVec.ofInt_natCast, sub_eq_iff_eq_add, ← BitVec.ofNat_add]
  congr 1
  omega

/-- With the right depth a level on the chain is converted without a loss. -/
theorem ApiContext.Agrees.keptLevel (agrees : context.Agrees) {level : BitVec 64} {fewer : Nat}
    (leaves : level.toNat + fewer = context.scheme.chain.length) (positive : 0 < fewer) :
    ((context.multiplicativeDepth.setWidth 64 - level).setWidth 32).toInt = (fewer : Int) - 1 := by
  have bounded := context.scheme.bounded
  have depth : context.multiplicativeDepth.toNat + 1 = context.scheme.chain.length := agrees
  have wide : (context.multiplicativeDepth.setWidth 64).toNat =
      context.multiplicativeDepth.toNat := by
    rw [BitVec.toNat_setWidth, Nat.mod_eq_of_lt (by omega)]
  have difference : (context.multiplicativeDepth.setWidth 64 - level).toNat = fewer - 1 := by
    rw [BitVec.toNat_sub_of_le (by rw [BitVec.le_def, wide]; omega), wide]
    omega
  rw [BitVec.toInt_eq_toNat_of_lt, BitVec.toNat_setWidth, difference, Nat.mod_eq_of_lt (by omega)]
  · omega
  · rw [BitVec.toNat_setWidth, difference, Nat.mod_eq_of_lt (by omega)]
    omega

end Fideslib.Transfer
