/-
This file proves the contract of the level bookkeeping over all runs.
-/

import Fideslib.Transfer.Levels

namespace Fideslib.Transfer

open StateMachine

variable {Residues Factor : Type} {context : ApiContext}
  {ct : CiphertextImpl Residues Factor}

/-- The host copy and the device ciphertext are both in the regular basis. -/
structure LevelInvariant (context : ApiContext) (ct : CiphertextImpl Residues Factor) : Prop where
  cpu : ct.cpu.Regular context.scheme
  gpu : ∀ device, ct.gpu = some device → device.Regular context.scheme

namespace LevelInvariant

variable {device : Ciphertext Residues Factor} {regular : Nat}

theorem load (invariant : LevelInvariant context ct) (pool0 pool1 : RnsPoly Residues) :
    LevelInvariant context (ct.load context pool0 pool1) := by
  unfold CiphertextImpl.load
  split
  case h_1 =>
    constructor
    case cpu => exact invariant.cpu
    case gpu =>
      obtain ⟨regular, sound⟩ := invariant.cpu
      rintro device ⟨⟩
      exact ⟨regular, sound.positive, sound.within, Ciphertext.load_holds sound pool0 pool1⟩
  case h_2 => exact invariant

theorem setLevel (invariant : LevelInvariant context ct) (agrees : context.Agrees)
    {level : BitVec 64} (onChain : level.toNat < context.scheme.chain.length)
    (above : ct.gpu = none → ct.cpu.level.toNat ≤ level.toNat) :
    LevelInvariant context (ct.setLevel context level) := by
  obtain ⟨fewer, leaves⟩ := Nat.exists_eq_add_of_lt onChain
  have left : level.toNat + (fewer + 1) = context.scheme.chain.length := by omega
  unfold CiphertextImpl.setLevel
  split
  case h_1 unloaded =>
    obtain ⟨regular, sound⟩ := invariant.cpu
    have current := sound.level_toNat
    have below := above unloaded
    have within := sound.within
    constructor
    case cpu => exact ⟨fewer + 1, sound.setLevel_sound left (Nat.succ_pos _) (by omega)⟩
    case gpu => exact invariant.gpu
  case h_2 device loaded =>
    obtain ⟨regular, positive, within, holds⟩ := invariant.gpu device loaded
    constructor
    case cpu => exact invariant.cpu
    case gpu =>
      rintro dropped ⟨⟩
      rw [agrees.keptLevel left (Nat.succ_pos _)]
      by_cases shorter : fewer + 1 ≤ regular
      · exact ⟨fewer + 1, Nat.succ_pos _, by omega, holds.dropToLevel shorter⟩
      · rw [holds.dropToLevel_above (by omega)]
        exact ⟨regular, positive, within, holds⟩

theorem decrypt (invariant : LevelInvariant context ct) (agrees : context.Agrees)
    {encrypt : BitVec 32 → HostCiphertext Residues Factor}
    (encrypts : ∀ level, level.toNat < context.scheme.chain.length →
      (encrypt level).Sound context.scheme (context.scheme.chain.length - level.toNat) false)
    {after : CiphertextImpl Residues Factor} (done : ct.decrypt context encrypt = some after) :
    LevelInvariant context after := by
  have bounded := context.scheme.bounded
  unfold CiphertextImpl.decrypt at done
  split at done
  case h_1 =>
    cases done
    exact invariant
  case h_2 device loaded =>
    obtain ⟨regular, positive, within, holds⟩ := invariant.gpu device loaded
    have level : (BitVec.ofNat 32 (context.scheme.chain.length - regular)).toNat =
        context.scheme.chain.length - regular := by
      rw [BitVec.toNat_ofNat, Nat.mod_eq_of_lt (by omega)]
    have shellSound : (if ct.cpu.towers < holds.raw.numRes then
        encrypt (context.multiplicativeDepth - BitVec.ofInt 32 device.getLevel)
        else ct.cpu).Regular context.scheme := by
      split
      case isTrue =>
        rw [agrees.deviceLevel holds positive within]
        exact ⟨_, encrypts _ (by rw [level]; omega)⟩
      case isFalse => exact invariant.cpu
    obtain ⟨towers, sound⟩ := shellSound
    obtain ⟨back, written, restores⟩ :=
      (getOpenFheCipherText_restores_iff holds within _).mpr sound.fitsOverwrite
    simp only [holds.store, Option.bind_eq_bind, Option.bind_some, written] at done
    cases done
    exact ⟨⟨regular, restores.sound positive within⟩, invariant.gpu⟩

variable [Zero Residues]

/-- A loaded ciphertext is restored when it is read back. -/
theorem readBack (invariant : LevelInvariant context ct) (loaded : ct.gpu = some device)
    (holds : device.Holds context.scheme regular false)
    (within : regular ≤ context.scheme.chain.length) :
    ∃ back, ct.readBack context = some back ∧
      Restores context.scheme regular false device back := by
  obtain ⟨towers, sound⟩ := invariant.cpu
  unfold CiphertextImpl.readBack
  rw [loaded]
  exact (ensureUpToDateCpuCopy_restores_iff holds within ct.cpu).mpr sound.fitsDownload

/-- A ciphertext that is read back is sound. -/
theorem readBack_sound (invariant : LevelInvariant context ct) {back : HostCiphertext Residues Factor}
    (done : ct.readBack context = some back) : back.Regular context.scheme := by
  cases loaded : ct.gpu with
  | none =>
      rw [CiphertextImpl.readBack, loaded] at done
      cases done
      exact invariant.cpu
  | some device =>
      obtain ⟨regular, positive, within, holds⟩ := invariant.gpu device loaded
      obtain ⟨restored, read, restores⟩ := invariant.readBack loaded holds within
      rw [read] at done
      cases done
      exact ⟨regular, restores.sound positive within⟩

end LevelInvariant

variable [Zero Residues]

/-- Every allowed step keeps the invariant. -/
theorem step_levelInvariant (agrees : context.Agrees) (action : Action Residues Factor)
    (before after : CiphertextImpl Residues Factor) (allowed : action.Allowed context before)
    (moves : action.step context before after) (invariant : LevelInvariant context before) :
    LevelInvariant context after := by
  cases action with
  | load pool0 pool1 =>
      cases moves
      exact invariant.load pool0 pool1
  | unload =>
      obtain ⟨back, read, rfl⟩ := Option.map_eq_some_iff.mp moves
      exact ⟨invariant.readBack_sound read, fun _ impossible => by cases impossible⟩
  | refresh =>
      obtain ⟨back, read, rfl⟩ := Option.map_eq_some_iff.mp moves
      exact ⟨invariant.readBack_sound read, invariant.gpu⟩
  | decrypt encrypt => exact invariant.decrypt agrees allowed moves
  | setLevel level =>
      cases moves
      exact invariant.setLevel agrees allowed.1 allowed.2
  | evaluateHost result =>
      obtain ⟨unloaded, rfl⟩ := moves
      exact ⟨allowed, invariant.gpu⟩
  | evaluateDevice result =>
      obtain ⟨_, rfl⟩ := moves
      exact ⟨invariant.cpu, fun device same => by cases same; exact allowed⟩
  | deserialize result =>
      cases moves
      exact ⟨allowed, fun _ impossible => by cases impossible⟩

omit [Zero Residues] in
/-- A loaded ciphertext reports the number of consumed primes. -/
theorem getLevel_loaded (agrees : context.Agrees) {device : Ciphertext Residues Factor}
    {regular : Nat} (loaded : ct.gpu = some device)
    (holds : device.Holds context.scheme regular false) (positive : 0 < regular)
    (within : regular ≤ context.scheme.chain.length) :
    ct.getLevel context = BitVec.ofNat 64 (context.scheme.chain.length - regular) := by
  have bounded := context.scheme.bounded
  unfold CiphertextImpl.getLevel
  rw [loaded]
  change BitVec.setWidth 64 (_ - _) = _
  rw [agrees.deviceLevel holds positive within]
  apply BitVec.eq_of_toNat_eq
  rw [BitVec.toNat_setWidth, BitVec.toNat_ofNat, BitVec.toNat_ofNat, Nat.mod_eq_of_lt (by omega),
    Nat.mod_eq_of_lt (by omega)]
  rw [Nat.mod_eq_of_lt (by omega)]

/-- An unloaded ciphertext meets the contract. -/
theorem LevelInvariant.contract_unloaded (invariant : LevelInvariant context ct)
    (agrees : context.Agrees) (unloaded : ct.gpu = none) : LevelContract context ct := by
  obtain ⟨regular, sound⟩ := invariant.cpu
  obtain ⟨cpu, gpu⟩ := ct
  cases unloaded
  have depth : context.multiplicativeDepth.toNat + 1 = context.scheme.chain.length := agrees
  have positive := sound.positive
  have within := sound.within
  have count : cpu.towers = regular := sound.towers
  have level : cpu.level.toNat = context.scheme.chain.length - regular := sound.level_toNat
  constructor
  case reads => exact ⟨cpu, rfl, rfl, count ▸ positive, count ▸ within, count ▸ sound.level⟩
  case loads =>
    intro pool0 pool1
    have trip := (roundTrips_iff sound cpu pool0 pool1).mpr ⟨rfl, sound.fitsDownload⟩
    have holds := Ciphertext.load_holds sound pool0 pool1
    constructor
    · exact trip.2
    · rw [getLevel_loaded agrees rfl holds positive within]
      exact sound.level.symm
  case sets =>
    intro target onChain above
    constructor
    · rfl
    · exact HostCiphertext.setLevel_level target cpu
  case keeps =>
    intro target impossible
    cases impossible
  case subtracts =>
    constructor
    · intro device impossible
      cases impossible
    · constructor
      · change cpu.level.toNat ≤ _
        omega
      · exact ⟨by change cpu.level.toNat ≤ _; omega, fun target onChain => by omega⟩

/-- A loaded ciphertext meets the contract. -/
theorem LevelInvariant.contract_loaded (invariant : LevelInvariant context ct)
    (agrees : context.Agrees) {device : Ciphertext Residues Factor}
    (loaded : ct.gpu = some device) : LevelContract context ct := by
  have bounded := context.scheme.bounded
  have depth : context.multiplicativeDepth.toNat + 1 = context.scheme.chain.length := agrees
  obtain ⟨towers, host⟩ := invariant.cpu
  obtain ⟨regular, positive, within, holds⟩ := invariant.gpu device loaded
  obtain ⟨back, read, restores⟩ := invariant.readBack loaded holds within
  have level := getLevel_loaded agrees loaded holds positive within
  have number : (ct.getLevel context).toNat = context.scheme.chain.length - regular := by
    rw [level, BitVec.toNat_ofNat, Nat.mod_eq_of_lt (by omega)]
  have count : back.towers = regular := (restores.sound positive within).towers
  have sets : ∀ target : BitVec 64, ct.setLevel context target =
      { ct with gpu := some (device.dropToLevel
          ((context.multiplicativeDepth.setWidth 64 - target).setWidth 32).toInt) } := by
    intro target
    unfold CiphertextImpl.setLevel
    rw [loaded]
  constructor
  case reads =>
    exact ⟨back, read, restores.level.trans level.symm, count ▸ positive, count ▸ within,
      count ▸ restores.level⟩
  case loads =>
    intro pool0 pool1
    have same : ct.load context pool0 pool1 = ct := by
      unfold CiphertextImpl.load
      rw [loaded]
    rw [same]
    exact ⟨rfl, rfl⟩
  case sets =>
    intro target onChain above
    obtain ⟨fewer, leaves⟩ := Nat.exists_eq_add_of_lt onChain
    have left : target.toNat + (fewer + 1) = context.scheme.chain.length := by omega
    have shorter : fewer + 1 ≤ regular := by omega
    rw [sets, agrees.keptLevel left (Nat.succ_pos _)]
    have dropped := holds.dropToLevel shorter
    have next : LevelInvariant context
        { ct with gpu := some (device.dropToLevel (((fewer + 1 : Nat) : Int) - 1)) } := by
      constructor
      case cpu => exact invariant.cpu
      case gpu =>
        rintro other ⟨⟩
        exact ⟨fewer + 1, Nat.succ_pos _, by omega, dropped⟩
    obtain ⟨after, readAfter, restoresAfter⟩ := next.readBack rfl dropped (by omega)
    constructor
    · rw [readAfter, read, Option.map_some]
      exact congrArg some (restoresAfter.unique
        (restores.setLevel holds positive within left shorter))
    · rw [getLevel_loaded agrees rfl dropped (Nat.succ_pos _) (by omega)]
      apply BitVec.eq_of_toNat_eq
      rw [BitVec.toNat_ofNat, Nat.mod_eq_of_lt (by omega)]
      omega
  case keeps =>
    intro target _ below
    have left : target.toNat + (context.scheme.chain.length - target.toNat) =
        context.scheme.chain.length := by omega
    rw [sets, agrees.keptLevel left (by omega), holds.dropToLevel_above (by omega), ← loaded]
  case subtracts =>
    constructor
    · intro other same
      rw [loaded] at same
      cases same
      have stored := holds.c0.level
      unfold Ciphertext.getLevel
      omega
    · have hostLevel := host.level_toNat
      have hostTowers := host.positive
      exact ⟨by omega, by omega, fun target onChain => by omega⟩

/-- The depth agrees with the chain unless a context with one prime more is generated. -/
theorem Origin.agrees {scheme : Scheme} {technique : ScalingTechnique} {depth : Nat}
    (chain : scheme.chain.length = chainLength technique depth) {origin : Origin}
    (restored : technique = .flexibleAutoExt → origin = .deserializeFromFile) :
    (origin.context scheme depth).Agrees := by
  have bounded := scheme.bounded
  have primes := scheme.chain_length_pos
  unfold ApiContext.Agrees
  cases origin with
  | genCryptoContext =>
      have plain : technique ≠ .flexibleAutoExt := fun same => by cases restored same
      rw [chainLength, if_neg plain] at chain
      change (BitVec.ofNat 32 depth).toNat + 1 = scheme.chain.length
      rw [BitVec.toNat_ofNat, Nat.mod_eq_of_lt (by omega)]
      omega
  | deserializeFromFile =>
      change (BitVec.ofNat 32 (scheme.chain.length - 1)).toNat + 1 = scheme.chain.length
      rw [BitVec.toNat_ofNat, Nat.mod_eq_of_lt (by omega)]
      omega

/-- In every allowed run from an encryption the level bookkeeping meets its contract, when the
context was restored or its technique has no additional prime. -/
theorem level_bookkeeping {scheme : Scheme} {technique : ScalingTechnique} {depth : Nat}
    (chain : scheme.chain.length = chainLength technique depth) (origin : Origin)
    (restored : technique = .flexibleAutoExt → origin = .deserializeFromFile)
    (first : HostCiphertext Residues Factor) (encrypted : first.Regular scheme)
    (run : Run (Action.step (origin.context scheme depth))
      (Action.Allowed (origin.context scheme depth)) ⟨first, none⟩ ct) :
    LevelContract (origin.context scheme depth) ct := by
  have agrees := Origin.agrees chain restored
  have same : (origin.context scheme depth).scheme = scheme := by
    cases origin <;> rfl
  have regular : first.Regular (origin.context scheme depth).scheme := by
    rw [same]
    exact encrypted
  have invariant : LevelInvariant (origin.context scheme depth) ct := by
    apply run.invariant (LevelInvariant (origin.context scheme depth))
    · exact ⟨regular, fun _ impossible => by cases impossible⟩
    · exact step_levelInvariant agrees
  cases loaded : ct.gpu with
  | none => exact invariant.contract_unloaded agrees loaded
  | some device => exact invariant.contract_loaded agrees loaded

/-- An encryption is uploaded and then set to a deeper level. -/
theorem level_bookkeeping_drop :
    LevelContract (Origin.genCryptoContext.context smallScheme 2)
      (((⟨hostZeros [3, 5, 7] 0, none⟩ : CiphertextImpl Nat Nat).load
        (Origin.genCryptoContext.context smallScheme 2) (smallPoly false)
        (smallPoly false)).setLevel (Origin.genCryptoContext.context smallScheme 2) 1) := by
  have chain : smallScheme.chain.length = chainLength .fixedManual 2 := rfl
  have manual : ScalingTechnique.fixedManual = .flexibleAutoExt →
      Origin.genCryptoContext = .deserializeFromFile := fun impossible => by cases impossible
  have encrypted : (hostZeros [3, 5, 7] 0).Regular smallScheme :=
    ⟨3, by decide, by decide, rfl, rfl⟩
  have deeper : (Action.setLevel 1 : Action Nat Nat).Allowed
      (Origin.genCryptoContext.context smallScheme 2)
      ((⟨hostZeros [3, 5, 7] 0, none⟩ : CiphertextImpl Nat Nat).load
        (Origin.genCryptoContext.context smallScheme 2) (smallPoly false) (smallPoly false)) :=
    ⟨by decide, fun impossible => by cases impossible⟩
  apply level_bookkeeping chain .genCryptoContext manual _ encrypted
  exact .next (.next .start (show (Action.load (smallPoly false) (smallPoly false)).Allowed _ _
    from trivial) rfl) deeper rfl

/-- A fresh ciphertext of a generated context with one prime more reports an underflown level when
it is loaded, and a level below the current one is reported over too few towers. -/
theorem level_drifts :
    smallScheme.chain.length = chainLength .flexibleAutoExt 1 ∧
      ((⟨hostZeros [3, 5, 7] 0, none⟩ : CiphertextImpl Nat Nat).load
        (Origin.genCryptoContext.context smallScheme 1) (smallPoly false)
        (smallPoly false)).getLevel (Origin.genCryptoContext.context smallScheme 1) =
          4294967295 ∧
      (⟨hostZeros [3, 5, 7] 0, none⟩ : CiphertextImpl Nat Nat).getLevel
        (Origin.genCryptoContext.context smallScheme 1) = 0 ∧
      ((hostZeros [3, 5] 1).setLevel 0).level = 0 ∧
      ((hostZeros [3, 5] 1).setLevel 0).towers = 2 := by
  decide

end Fideslib.Transfer
