/-
This file says exactly when a download and an upload restore a ciphertext.
-/

import Fideslib.Transfer.Ciphertexts

namespace Fideslib.Transfer

variable {Residues Factor : Type} {scheme : Scheme} {regular : Nat} {extended : Bool}

namespace Scheme

/-- An extended ciphertext has one more row for every special prime. -/
def specialRows (scheme : Scheme) (extended : Bool) : Nat :=
  if extended then scheme.special.length else 0

theorem special_length_pos (scheme : Scheme) : 0 < scheme.special.length :=
  List.length_pos_iff.mpr scheme.specialPrime

theorem chain_length_pos (scheme : Scheme) : 0 < scheme.chain.length :=
  List.length_pos_iff.mpr scheme.regularPrime

theorem basis_length (within : regular ≤ scheme.chain.length) :
    (scheme.basis regular extended).length = regular + scheme.specialRows extended := by
  cases extended <;> simp [basis, specialRows, within]

/-- No regular prime is a special prime. -/
theorem chain_ne_special (scheme : Scheme) {place : Nat} (inside : place < scheme.chain.length) :
    scheme.chain[place]? ≠ scheme.special.head? := by
  intro same
  have disjoint := (List.nodup_append.mp scheme.distinct).2.2
  rw [List.getElem?_eq_getElem inside] at same
  have special : scheme.chain[place] ∈ scheme.special := List.mem_of_head? same.symm
  exact disjoint _ (List.getElem_mem inside) _ special rfl

/-- A special prime only stands at its own place. -/
theorem special_place (scheme : Scheme) {place : Nat}
    (same : scheme.special[place]? = scheme.special.head?) : place = 0 := by
  have distinct := (List.nodup_append.mp scheme.distinct).2.1
  have first := scheme.special_length_pos
  rw [List.head?_eq_getElem?, List.getElem?_eq_getElem first] at same
  obtain ⟨inside, equal⟩ := List.getElem?_eq_some_iff.mp same
  exact (List.Nodup.getElem_inj_iff distinct).mp equal

/-- The special primes of an extended basis do not lie on the chain. -/
theorem take_ne_basis (within : regular < scheme.chain.length) (count : Nat) :
    scheme.chain.take count ≠ scheme.basis regular true := by
  intro same
  have there := congrArg (fun moduli : List Nat => moduli[regular]?) same
  have special : (scheme.basis regular true)[regular]? = scheme.special.head? := by
    simp [basis, List.getElem?_append, List.head?_eq_getElem?, Nat.min_eq_left within.le]
  rw [special, List.getElem?_take] at there
  split at there
  case isTrue => exact scheme.chain_ne_special within there
  case isFalse =>
    rw [eq_comm, List.head?_eq_none_iff] at there
    exact scheme.specialPrime there

end Scheme

/-- A device polynomial holds a number of regular towers and, when extended, all special ones. -/
structure RnsPoly.Holds (scheme : Scheme) (regular : Nat) (extended : Bool)
    (poly : RnsPoly Residues) : Prop where
  level : poly.level = regular - 1
  limbs : regular ≤ poly.limb.length
  modUp : poly.modUp = extended
  specials : extended = true → scheme.special.length ≤ poly.specialLimb.length

/-- These are the rows that a device polynomial stores. -/
def RnsPoly.rows (scheme : Scheme) (regular : Nat) (extended : Bool) (poly : RnsPoly Residues) :
    List Residues :=
  poly.limb.take regular ++ poly.specialLimb.take (scheme.specialRows extended)

theorem RnsPoly.Holds.store {poly : RnsPoly Residues} (holds : poly.Holds scheme regular extended) :
    poly.store scheme = some (poly.rows scheme regular extended) := by
  have count : (poly.level + 1).toNat = regular := by
    rw [holds.level]
    omega
  have enough : scheme.specialRows extended ≤ poly.specialLimb.length := by
    cases extended with
    | false => exact Nat.zero_le _
    | true => exact holds.specials rfl
  unfold RnsPoly.store RnsPoly.rows
  simp only [count, holds.modUp]
  exact if_pos ⟨holds.limbs, enough⟩

theorem RnsPoly.Holds.rows_length {poly : RnsPoly Residues}
    (holds : poly.Holds scheme regular extended) :
    (poly.rows scheme regular extended).length = regular + scheme.specialRows extended := by
  have enough : scheme.specialRows extended ≤ poly.specialLimb.length := by
    cases extended with
    | false => exact Nat.zero_le _
    | true => exact holds.specials rfl
  simp [RnsPoly.rows, holds.limbs, enough]

/-- Both polynomials of a device ciphertext hold the same towers. -/
structure Ciphertext.Holds (scheme : Scheme) (regular : Nat) (extended : Bool)
    (device : Ciphertext Residues Factor) : Prop where
  c0 : device.c0.Holds scheme regular extended
  c1 : device.c1.Holds scheme regular extended

/-- The stored form has the rows and the metadata of the device ciphertext. -/
def Ciphertext.Holds.raw {device : Ciphertext Residues Factor}
    (holds : device.Holds scheme regular extended) : RawCipherText Residues Factor where
  numRes := regular + scheme.specialRows extended
  sub0 := device.c0.rows scheme regular extended
  sub1 := device.c1.rows scheme regular extended
  noise := device.noiseFactor
  noiseLevel := device.noiseLevel
  keyid := device.keyId
  slots := device.slots
  rows0 := holds.c0.rows_length
  rows1 := holds.c1.rows_length

theorem Ciphertext.Holds.store {device : Ciphertext Residues Factor}
    (holds : device.Holds scheme regular extended) : device.store scheme = some holds.raw := by
  have count : (device.c0.level + 1).toNat = regular := by
    rw [holds.c0.level]
    omega
  unfold Ciphertext.store
  simp only [count, RnsPoly.isModUp, holds.c0.modUp, holds.c0.store, holds.c1.store,
    Option.bind_eq_bind, Option.bind_some]
  exact dif_pos ⟨holds.c0.rows_length, holds.c1.rows_length⟩

/-- The host ciphertext has the rows of the device ciphertext over the right moduli, counts the
other primes of the chain as consumed and has the same metadata. -/
structure Restores (scheme : Scheme) (regular : Nat) (extended : Bool)
    (device : Ciphertext Residues Factor) (back : HostCiphertext Residues Factor) : Prop where
  moduli : back.c0.moduli = scheme.basis regular extended
  c0 : back.c0.elements = device.c0.rows scheme regular extended
  c1 : back.c1.elements = device.c1.rows scheme regular extended
  level : back.level = BitVec.ofNat 64 (scheme.chain.length - regular)
  scalingFactor : back.scalingFactor = device.noiseFactor
  noiseScaleDeg : back.noiseScaleDeg = device.noiseLevel
  keyTag : back.keyTag = device.keyId
  slots : back.slots = device.slots

/-- The level of a host ciphertext and its towers account for the whole chain. -/
def HostCiphertext.Accounts (scheme : Scheme) (extended : Bool)
    (ct : HostCiphertext Residues Factor) : Prop :=
  ct.level + BitVec.ofNat 64 ct.towers =
    BitVec.ofNat 64 (scheme.chain.length + scheme.specialRows extended)

/-- The level that an overwriting computes is right exactly when the level before accounted for
the chain. -/
theorem level_iff_accounts (within : regular ≤ scheme.chain.length)
    (cpu : HostCiphertext Residues Factor) :
    cpu.level + BitVec.ofNat 64 cpu.towers -
        BitVec.ofNat 64 (regular + scheme.specialRows extended) =
      BitVec.ofNat 64 (scheme.chain.length - regular) ↔ cpu.Accounts scheme extended := by
  have whole : scheme.chain.length - regular + (regular + scheme.specialRows extended) =
      scheme.chain.length + scheme.specialRows extended := by omega
  rw [sub_eq_iff_eq_add, ← BitVec.ofNat_add, whole]
  rfl

variable {device : Ciphertext Residues Factor}

/-- Written rows restore a device ciphertext exactly over the right moduli and at a level that
accounts for the chain. -/
theorem writeRows_restores_iff (holds : device.Holds scheme regular extended)
    (within : regular ≤ scheme.chain.length) (moduli : List Nat)
    (cpu : HostCiphertext Residues Factor) :
    (∃ back, writeRows moduli cpu holds.raw = some back ∧
      Restores scheme regular extended device back) ↔
      moduli.take (regular + scheme.specialRows extended) = scheme.basis regular extended ∧
        cpu.Accounts scheme extended := by
  rw [← level_iff_accounts within]
  unfold writeRows
  constructor
  · rintro ⟨back, done, restores⟩
    split at done
    case isFalse => cases done
    case isTrue enough =>
      cases done
      exact ⟨restores.moduli, restores.level⟩
  · rintro ⟨same, level⟩
    have enough : regular + scheme.specialRows extended ≤ moduli.length := by
      rw [← Scheme.basis_length within, ← same, List.length_take]
      exact Nat.min_le_right _ _
    exact ⟨_, dif_pos enough, same, rfl, rfl, level, rfl, rfl, rfl, rfl⟩

/-- The chain alone is the right basis exactly for a regular ciphertext. -/
theorem Scheme.take_eq_basis_iff (within : regular ≤ scheme.chain.length) :
    scheme.chain.take (regular + scheme.specialRows extended) = scheme.basis regular extended ↔
      extended = false := by
  cases extended with
  | false => simp [Scheme.basis, Scheme.specialRows]
  | true =>
      constructor
      · intro same
        have specials := scheme.special_length_pos
        have rows : scheme.specialRows true = scheme.special.length := rfl
        have counts := congrArg List.length same
        rw [Scheme.basis_length within, List.length_take] at counts
        exact absurd same (scheme.take_ne_basis (by omega) _)
      · intro impossible
        cases impossible

/-- A host copy fits an overwriting when its level accounts for the chain and it has the right
moduli, or is too short for a regular ciphertext. -/
def HostCiphertext.FitsOverwrite (scheme : Scheme) (regular : Nat) (extended : Bool)
    (cpu : HostCiphertext Residues Factor) : Prop :=
  (if cpu.towers < regular + scheme.specialRows extended then extended = false
    else cpu.c0.moduli.take (regular + scheme.specialRows extended) =
      scheme.basis regular extended) ∧ cpu.Accounts scheme extended

theorem getOpenFheCipherText_restores_iff (holds : device.Holds scheme regular extended)
    (within : regular ≤ scheme.chain.length) (cpu : HostCiphertext Residues Factor) :
    (∃ back, getOpenFheCipherText scheme cpu holds.raw = some back ∧
      Restores scheme regular extended device back) ↔
      cpu.FitsOverwrite scheme regular extended := by
  have rows : holds.raw.numRes = regular + scheme.specialRows extended := rfl
  unfold getOpenFheCipherText HostCiphertext.FitsOverwrite
  rw [writeRows_restores_iff holds within, rows]
  by_cases short : cpu.towers < regular + scheme.specialRows extended
  · rw [if_pos short, if_pos short, Scheme.take_eq_basis_iff within]
  · rw [if_neg short, if_neg short]

/-- A host copy fits a download when it is too short for a regular ciphertext, when it holds the
whole chain for an extended ciphertext without consumed primes, or when it has enough towers, the
right moduli and a level that accounts for the chain. -/
def HostCiphertext.FitsDownload (scheme : Scheme) (regular : Nat) (extended : Bool)
    (cpu : HostCiphertext Residues Factor) : Prop :=
  if cpu.towers < regular + scheme.specialRows extended then
    extended = false ∨ regular = scheme.chain.length ∧ cpu.c0.moduli = scheme.chain
  else cpu.c0.moduli.take (regular + scheme.specialRows extended) = scheme.basis regular extended ∧
    cpu.Accounts scheme extended

/-- The extended basis of a short copy is the right one exactly for the whole chain. -/
theorem Scheme.extended_take_eq_basis_iff (moduli : List Nat)
    (short : moduli.length < regular + scheme.special.length)
    (accounts : moduli.length = scheme.chain.length) (within : regular ≤ scheme.chain.length) :
    (moduli ++ scheme.special).take (regular + scheme.special.length) =
        scheme.basis regular true ↔
      regular = scheme.chain.length ∧ moduli = scheme.chain := by
  constructor
  · intro same
    have first : (scheme.basis regular true)[scheme.chain.length]? =
        scheme.special[scheme.chain.length - regular]? := by
      simp [basis, List.getElem?_append, Nat.min_eq_left within]
      omega
    have there := congrArg (fun primes : List Nat => primes[scheme.chain.length]?) same
    rw [first, List.getElem?_take_of_lt (by omega), ← accounts, List.getElem?_append_right le_rfl,
      Nat.sub_self, ← List.head?_eq_getElem?] at there
    have whole : regular = scheme.chain.length := by
      have zero := scheme.special_place there.symm
      omega
    rw [whole, ← accounts, List.take_of_length_le (by simp), basis, accounts,
      List.take_length] at same
    exact ⟨whole, List.append_cancel_right same⟩
  · rintro ⟨rfl, rfl⟩
    rw [List.take_of_length_le (by simp), basis, List.take_length]
    rfl

/-- A grown copy has the kept towers and a level that accounts for its parameters. -/
theorem grow_fitsOverwrite_iff [Zero Residues] (params : List Nat)
    (cpu : HostCiphertext Residues Factor) (bounded : params.length < 2 ^ 32)
    (enough : regular + scheme.specialRows extended ≤ params.length) :
    (cpu.grow params (regular + scheme.specialRows extended)).FitsOverwrite scheme regular
        extended ↔
      params.take (regular + scheme.specialRows extended) = scheme.basis regular extended ∧
        params.length = scheme.chain.length + scheme.specialRows extended := by
  have towers : (cpu.grow params (regular + scheme.specialRows extended)).towers =
      regular + scheme.specialRows extended := by
    simp [HostCiphertext.grow, HostCiphertext.towers, enough]
  have chain := scheme.bounded
  have rows : scheme.specialRows extended ≤ scheme.special.length := by
    cases extended
    · exact Nat.zero_le _
    · exact le_rfl
  have accounts : (cpu.grow params (regular + scheme.specialRows extended)).Accounts scheme
      extended ↔ params.length = scheme.chain.length + scheme.specialRows extended := by
    unfold HostCiphertext.Accounts
    rw [towers]
    change BitVec.ofNat 64 params.length - _ + _ = _ ↔ _
    rw [sub_add_cancel]
    constructor
    · intro same
      have numbers := congrArg BitVec.toNat same
      rw [BitVec.toNat_ofNat, BitVec.toNat_ofNat, Nat.mod_eq_of_lt (by omega),
        Nat.mod_eq_of_lt (by omega)] at numbers
      exact numbers
    · intro same
      rw [same]
  unfold HostCiphertext.FitsOverwrite
  rw [towers, if_neg (Nat.lt_irrefl _), accounts]
  change (params.take _).take _ = _ ∧ _ ↔ _
  rw [List.take_take, Nat.min_self]

theorem ensureUpToDateCpuCopy_restores_iff [Zero Residues]
    (holds : device.Holds scheme regular extended)
    (within : regular ≤ scheme.chain.length) (cpu : HostCiphertext Residues Factor) :
    (∃ back, ensureUpToDateCpuCopy scheme cpu device = some back ∧
      Restores scheme regular extended device back) ↔
      cpu.FitsDownload scheme regular extended := by
  have towers : cpu.towers = cpu.c0.moduli.length := cpu.c0.complete
  have rows : holds.raw.numRes = regular + scheme.specialRows extended := rfl
  have bounded := scheme.bounded
  unfold ensureUpToDateCpuCopy HostCiphertext.FitsDownload
  simp only [holds.store, Option.bind_eq_bind, Option.bind_some, rows]
  by_cases short : cpu.towers < regular + scheme.specialRows extended
  · simp only [if_pos short, getOpenFheCipherText_restores_iff holds within]
    by_cases beyond : scheme.chain.length < regular + scheme.specialRows extended
    · have marked : extended = true := by
        cases extended
        · exact absurd beyond (by simpa [Scheme.specialRows] using within)
        · rfl
      subst marked
      have special : scheme.specialRows true = scheme.special.length := rfl
      rw [if_pos beyond]
      rw [special] at short beyond ⊢
      rw [towers] at short
      by_cases reached : regular ≤ cpu.c0.moduli.length
      · rw [← special, grow_fitsOverwrite_iff (cpu.c0.moduli ++ scheme.special) cpu
          (by rw [List.length_append]; omega) (by rw [List.length_append]; omega),
          special, List.length_append, Nat.add_right_cancel_iff]
        constructor
        · rintro ⟨same, accounts⟩
          exact Or.inr ((Scheme.extended_take_eq_basis_iff _ short accounts within).mp same)
        · rintro (impossible | ⟨whole, chain⟩)
          · cases impossible
          · have accounts := congrArg List.length chain
            exact ⟨(Scheme.extended_take_eq_basis_iff _ short accounts within).mpr
              ⟨whole, chain⟩, accounts⟩
      · have grown : (cpu.grow (cpu.c0.moduli ++ scheme.special)
            (regular + scheme.special.length)).towers < regular + scheme.special.length := by
          simp only [HostCiphertext.grow, HostCiphertext.towers, List.length_replicate,
            List.length_take, List.length_append]
          omega
        unfold HostCiphertext.FitsOverwrite
        rw [special, if_pos grown]
        constructor
        · rintro ⟨impossible, _⟩
          cases impossible
        · rintro (impossible | ⟨whole, chain⟩)
          · cases impossible
          · exact absurd (congrArg List.length chain) (by omega)
    · rw [if_neg beyond, grow_fitsOverwrite_iff scheme.chain cpu (by omega) (by omega),
        Scheme.take_eq_basis_iff within]
      cases extended with
      | false => simp [Scheme.specialRows]
      | true =>
          have special : scheme.specialRows true = scheme.special.length := rfl
          have specials := scheme.special_length_pos
          constructor
          · rintro ⟨impossible, _⟩
            cases impossible
          · rintro (impossible | ⟨whole, _⟩)
            · cases impossible
            · omega
  · rw [if_neg short, if_neg short, getOpenFheCipherText_restores_iff holds within,
      HostCiphertext.FitsOverwrite, if_neg short]

/-- A device ciphertext is restored in one way only. -/
theorem Restores.unique {first second : HostCiphertext Residues Factor} {extended : Bool}
    (one : Restores scheme regular extended device first)
    (other : Restores scheme regular extended device second) : first = second := by
  have basis : first.c0.moduli = second.c0.moduli := one.moduli.trans other.moduli.symm
  have c0 : first.c0 = second.c0 := by
    ext1
    · exact basis
    · exact one.c0.trans other.c0.symm
  have c1 : first.c1 = second.c1 := by
    ext1
    · rw [first.sameBasis, second.sameBasis, basis]
    · exact one.c1.trans other.c1.symm
  ext1
  · exact c0
  · exact c1
  · exact one.level.trans other.level.symm
  · exact one.scalingFactor.trans other.scalingFactor.symm
  · exact one.noiseScaleDeg.trans other.noiseScaleDeg.symm
  · exact one.keyTag.trans other.keyTag.symm
  · exact one.slots.trans other.slots.symm

/-- A host ciphertext has the right moduli and counts the other primes as consumed. -/
structure HostCiphertext.Sound (scheme : Scheme) (regular : Nat) (extended : Bool)
    (ct : HostCiphertext Residues Factor) : Prop where
  positive : 0 < regular
  within : regular ≤ scheme.chain.length
  moduli : ct.c0.moduli = scheme.basis regular extended
  level : ct.level = BitVec.ofNat 64 (scheme.chain.length - regular)

theorem HostCiphertext.Sound.towers {ct : HostCiphertext Residues Factor}
    (sound : ct.Sound scheme regular extended) :
    ct.towers = regular + scheme.specialRows extended := by
  rw [HostCiphertext.towers, ct.c0.complete, sound.moduli, Scheme.basis_length sound.within]

/-- Exactly the regular rows carry the regular prime of their place. -/
theorem Scheme.basis_place_iff (within : regular ≤ scheme.chain.length) (place : Nat)
    (inside : place < regular + scheme.specialRows extended) :
    (place < scheme.chain.length ∧
      (scheme.basis regular extended)[place]? = scheme.chain[place]?) ↔ place < regular := by
  by_cases early : place < regular
  · have same : (scheme.basis regular extended)[place]? = scheme.chain[place]? := by
      rw [basis, List.getElem?_append_left (by rw [List.length_take]; omega),
        List.getElem?_take_of_lt early]
    exact ⟨fun _ => early, fun _ => ⟨by omega, same⟩⟩
  · constructor
    · rintro ⟨onChain, same⟩
      cases extended with
      | false =>
          have rows : scheme.specialRows false = 0 := rfl
          omega
      | true =>
          have disjoint := (List.nodup_append.mp scheme.distinct).2.2
          have later : (scheme.chain.take regular).length ≤ place := by
            rw [List.length_take]
            omega
          rw [basis, List.getElem?_append_right later, List.getElem?_eq_getElem onChain] at same
          have special : scheme.chain[place] ∈ scheme.special := List.mem_of_getElem? same
          exact absurd rfl (disjoint _ (List.getElem_mem onChain) _ special)
    · intro late
      exact absurd late early

/-- The load finds as many regular rows as the ciphertext has regular towers. -/
theorem RnsPoly.limbsize_basis (within : regular ≤ scheme.chain.length) :
    RnsPoly.limbsize scheme (scheme.basis regular extended)
      (regular + scheme.specialRows extended) = regular := by
  have counted : (List.range (regular + scheme.specialRows extended)).filter (fun place =>
      place < scheme.chain.length ∧
        (scheme.basis regular extended)[place]? = scheme.chain[place]?) = List.range regular := by
    have places : ∀ place ∈ List.range (regular + scheme.specialRows extended),
        decide (place < scheme.chain.length ∧
          (scheme.basis regular extended)[place]? = scheme.chain[place]?) =
        decide (place < regular) := by
      intro place member
      exact decide_eq_decide.mpr
        (scheme.basis_place_iff within place (List.mem_range.mp member))
    rw [List.filter_congr places, List.range_add, List.filter_append,
      List.filter_eq_self.mpr (by simp), List.filter_eq_nil_iff.mpr (by simp), List.append_nil]
  unfold RnsPoly.limbsize
  rw [counted, List.length_range]

/-- A regular load puts the rows before the limbs that the polynomial had beyond them. -/
theorem RnsPoly.load_eq (data : List Residues) (within : data.length ≤ scheme.chain.length)
    (pool : RnsPoly Residues) :
    pool.fresh.load scheme data (scheme.basis data.length false) =
      ⟨data.length - 1, data ++ pool.limb.drop data.length, pool.specialLimb, false⟩ := by
  have counted : RnsPoly.limbsize scheme (scheme.basis data.length false) data.length =
      data.length :=
    @RnsPoly.limbsize_basis scheme data.length false within
  unfold RnsPoly.load
  simp only [counted, Nat.sub_self, List.take_length, List.drop_length]
  rfl

/-- A regular load fills the limbs with the rows and leaves the polynomial regular. -/
theorem RnsPoly.load_holds (within : regular ≤ scheme.chain.length) (data : List Residues)
    (count : data.length = regular) (pool : RnsPoly Residues) :
    (pool.fresh.load scheme data (scheme.basis regular false)).Holds scheme regular false ∧
      (pool.fresh.load scheme data (scheme.basis regular false)).rows scheme regular false =
        data := by
  subst count
  rw [RnsPoly.load_eq data within]
  constructor
  · constructor
    case level => rfl
    case limbs => simp
    case modUp => rfl
    case specials =>
      intro impossible
      cases impossible
  · simp [RnsPoly.rows, Scheme.specialRows]

/-- A load never marks a ciphertext as extended. -/
theorem Ciphertext.load_isModUp (ct : HostCiphertext Residues Factor)
    (pool0 pool1 : RnsPoly Residues) :
    (Ciphertext.load scheme (getRawCipherText ct) pool0 pool1).c0.isModUp = false := rfl

/-- A regular upload holds the towers of the host ciphertext. -/
theorem Ciphertext.load_holds {ct : HostCiphertext Residues Factor}
    (sound : ct.Sound scheme regular false) (pool0 pool1 : RnsPoly Residues) :
    (Ciphertext.load scheme (getRawCipherText ct) pool0 pool1).Holds scheme regular false := by
  have count : ct.c0.elements.length = regular := sound.towers
  have other : ct.c1.elements.length = regular := by
    rw [ct.c1.complete, ct.sameBasis, ← ct.c0.complete, count]
  unfold Ciphertext.load getRawCipherText
  rw [sound.moduli]
  exact ⟨(RnsPoly.load_holds sound.within _ count pool0).1,
    (RnsPoly.load_holds sound.within _ other pool1).1⟩

/-- A restored upload is the host ciphertext itself. -/
theorem Ciphertext.load_restores_iff {ct : HostCiphertext Residues Factor}
    (sound : ct.Sound scheme regular false) (pool0 pool1 : RnsPoly Residues)
    (back : HostCiphertext Residues Factor) :
    Restores scheme regular false
        (Ciphertext.load scheme (getRawCipherText ct) pool0 pool1) back ↔ back = ct := by
  have count : ct.c0.elements.length = regular := sound.towers
  have other : ct.c1.elements.length = regular := by
    rw [ct.c1.complete, ct.sameBasis, ← ct.c0.complete, count]
  have rows0 : (Ciphertext.load scheme (getRawCipherText ct) pool0 pool1).c0.rows scheme regular
      false = ct.c0.elements := by
    unfold Ciphertext.load getRawCipherText
    rw [sound.moduli]
    exact (RnsPoly.load_holds sound.within _ count pool0).2
  have rows1 : (Ciphertext.load scheme (getRawCipherText ct) pool0 pool1).c1.rows scheme regular
      false = ct.c1.elements := by
    unfold Ciphertext.load getRawCipherText
    rw [sound.moduli]
    exact (RnsPoly.load_holds sound.within _ other pool1).2
  have own : Restores scheme regular false
      (Ciphertext.load scheme (getRawCipherText ct) pool0 pool1) ct :=
    ⟨sound.moduli, rows0.symm, rows1.symm, sound.level, rfl, rfl, rfl, rfl⟩
  constructor
  · intro restores
    exact restores.unique own
  · rintro rfl
    exact own

/-- An upload round trips when the device copy is in the same basis and the download into a host
copy gives the ciphertext back. -/
def RoundTrips [Zero Residues] (scheme : Scheme) (extended : Bool)
    (ct cpu : HostCiphertext Residues Factor) (pool0 pool1 : RnsPoly Residues) : Prop :=
  (Ciphertext.load scheme (getRawCipherText ct) pool0 pool1).c0.isModUp = extended ∧
    ensureUpToDateCpuCopy scheme cpu
      (Ciphertext.load scheme (getRawCipherText ct) pool0 pool1) = some ct

theorem roundTrips_iff [Zero Residues] {ct : HostCiphertext Residues Factor}
    (sound : ct.Sound scheme regular extended) (cpu : HostCiphertext Residues Factor)
    (pool0 pool1 : RnsPoly Residues) :
    RoundTrips scheme extended ct cpu pool0 pool1 ↔
      extended = false ∧ cpu.FitsDownload scheme regular false := by
  unfold RoundTrips
  rw [Ciphertext.load_isModUp]
  cases extended with
  | true => simp
  | false =>
      have restored := ensureUpToDateCpuCopy_restores_iff
        (Ciphertext.load_holds sound pool0 pool1) sound.within cpu
      rw [← restored]
      constructor
      · rintro ⟨_, done⟩
        exact ⟨rfl, ct, done, (Ciphertext.load_restores_iff sound pool0 pool1 ct).mpr rfl⟩
      · rintro ⟨_, back, done, restores⟩
        rw [(Ciphertext.load_restores_iff sound pool0 pool1 back).mp restores] at done
        exact ⟨rfl, done⟩

/-- An upload round trips exactly for a regular ciphertext and a host copy that fits, a download
restores the device ciphertext exactly into a host copy that fits it, and so does an overwriting. -/
theorem transfer_contract [Zero Residues] (scheme : Scheme) :
    (∀ regular extended (ct cpu : HostCiphertext Residues Factor) pool0 pool1,
      ct.Sound scheme regular extended →
      (RoundTrips scheme extended ct cpu pool0 pool1 ↔
        extended = false ∧ cpu.FitsDownload scheme regular false)) ∧
    (∀ regular extended (device : Ciphertext Residues Factor)
      (cpu : HostCiphertext Residues Factor), device.Holds scheme regular extended →
      0 < regular → regular ≤ scheme.chain.length →
      ((∃ back, ensureUpToDateCpuCopy scheme cpu device = some back ∧
        Restores scheme regular extended device back) ↔
        cpu.FitsDownload scheme regular extended)) ∧
    (∀ regular extended (device : Ciphertext Residues Factor)
      (cpu : HostCiphertext Residues Factor), device.Holds scheme regular extended →
      0 < regular → regular ≤ scheme.chain.length →
      ((∃ raw back, device.store scheme = some raw ∧
        getOpenFheCipherText scheme cpu raw = some back ∧
        Restores scheme regular extended device back) ↔
        cpu.FitsOverwrite scheme regular extended)) := by
  constructor
  · intro regular extended ct cpu pool0 pool1 sound
    exact roundTrips_iff sound cpu pool0 pool1
  constructor
  · intro regular extended device cpu holds _ within
    exact ensureUpToDateCpuCopy_restores_iff holds within cpu
  · intro regular extended device cpu holds _ within
    rw [← getOpenFheCipherText_restores_iff holds within cpu]
    constructor
    · rintro ⟨raw, back, stored, written, restores⟩
      rw [holds.store] at stored
      cases stored
      exact ⟨back, written, restores⟩
    · rintro ⟨back, written, restores⟩
      exact ⟨holds.raw, back, holds.store, written, restores⟩

/-- This scheme has three regular primes and one special prime. -/
def smallScheme : Scheme where
  chain := [3, 5, 7]
  special := [11]
  distinct := by decide
  regularPrime := by decide
  specialPrime := by decide
  bounded := by decide

/-- This host ciphertext has one row of zeros for every modulus. -/
def hostZeros (moduli : List Nat) (level : BitVec 64) : HostCiphertext Nat Nat where
  c0 := ⟨moduli, List.replicate moduli.length 0, List.length_replicate⟩
  c1 := ⟨moduli, List.replicate moduli.length 0, List.length_replicate⟩
  sameBasis := rfl
  level := level
  scalingFactor := 1
  noiseScaleDeg := 1
  keyTag := ""
  slots := 1

/-- This polynomial has one regular limb and one special limb. -/
def smallPoly (modUp : Bool) : RnsPoly Nat := ⟨0, [2], [10], modUp⟩

/-- This device ciphertext is extended and has consumed two of the three primes. -/
def smallExtended : Ciphertext Nat Nat := ⟨smallPoly true, smallPoly true, 1, 1, "", 1⟩

/-- Two towers come back into a host copy with one tower. -/
theorem transfer_contract_grows :
    RoundTrips smallScheme false (hostZeros [3, 5] 1) (hostZeros [3] 0) (smallPoly false)
      (smallPoly false) :=
  ((transfer_contract smallScheme).1 2 false _ _ _ _
    ⟨by decide, by decide, rfl, rfl⟩).mpr ⟨rfl, Or.inl rfl⟩

/-- An extended ciphertext at a low level comes back over the next regular prime, an uploaded one is
not marked as extended, and a stale level of the host copy survives a download. -/
theorem transfer_loses_basis :
    (ensureUpToDateCpuCopy smallScheme (hostZeros [3] 2) smallExtended).map
        (fun back => back.c0.moduli) = some [3, 5] ∧
      (Ciphertext.load smallScheme (getRawCipherText (hostZeros [3, 11] 2)) (smallPoly false)
        (smallPoly false)).c0.isModUp = false ∧
      (ensureUpToDateCpuCopy smallScheme (hostZeros [3, 5] 0)
        (Ciphertext.load smallScheme (getRawCipherText (hostZeros [3, 5] 1)) (smallPoly false)
          (smallPoly false))).map (fun back => back.level) = some 0 := by
  decide

end Fideslib.Transfer
