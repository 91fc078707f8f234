/-
This file translates the offload of a ciphertext to the host and its reload.
-/

import Fideslib.CKKS.Plaintext

namespace Fideslib.Offload

open CKKS

variable {F : Type} {cc : ContextData F}

/-- The rows of a raw ciphertext are words, and the load compares its moduli with the chain. -/
structure RawCipherText (cc : ContextData F) where
  numRes : Nat
  sub_0 : List (Fin cc.N → Nat)
  sub_1 : List (Fin cc.N → Nat)
  moduli : List Nat
  Noise : F
  NoiseLevel : Int
  keyid : String
  slots : Int
  sameRows : sub_1.length = sub_0.length

namespace Poly

/-- The store copies one row for each limb up to the level. -/
def store (poly : RNSPoly cc) : List (Fin cc.N → Nat) :=
  (List.range (poly.level + 1).toNat).map fun id => fun k => (poly.limb id k).val

theorem store_length (poly : RNSPoly cc) : (store poly).length = (poly.level + 1).toNat := by
  rw [store, List.length_map, List.length_range]

/-- The load counts the rows whose modulus is the prime of their place. -/
def limbsize (cc : ContextData F) (count : Nat) (moduli : List Nat) : Nat :=
  ((List.range count).filter fun i : Nat =>
    (i : Int) ≤ cc.L ∧ moduli[i]? = some (cc.prime i)).length

/-- A row is converted to residues, and a limb without a row keeps its contents. -/
def loadConvert (poly : RNSPoly cc) (row : Option (Fin cc.N → Nat)) (id : Nat) :
    Fin cc.N → ZMod (cc.prime id) :=
  match row with
  | some row => fun k => (row k : ZMod (cc.prime id))
  | none => poly.limb id

/-- The other rows go to the special limbs, and one of them alone raises the level. -/
def load (poly : RNSPoly cc) (data : List (Fin cc.N → Nat)) (moduli : List Nat) : RNSPoly cc where
  level := (limbsize cc data.length moduli : Int) - 1 +
    if data.length - limbsize cc data.length moduli = 1 then 1 else 0
  limb := fun id =>
    if id < limbsize cc data.length moduli then loadConvert poly data[id]? id
    else if cc.L < id then
      loadConvert poly data[limbsize cc data.length moduli + (id - (cc.L + 1).toNat)]? id
    else poly.limb id

/-- A freed polynomial has no limbs. -/
def freeGPU (_poly : RNSPoly cc) : RNSPoly cc where
  level := -1
  limb := fun _ => 0

/-- No operation reads the limbs above the level. -/
def live (poly : RNSPoly cc) : RNSPoly cc where
  level := poly.level
  limb := fun id => if (id : Int) ≤ poly.level then poly.limb id else 0

end Poly

/-- A device ciphertext may have its polynomials on the host. -/
structure Object (cc : ContextData F) where
  c0 : RNSPoly cc
  c1 : RNSPoly cc
  NoiseLevel : Int
  NoiseFactor : F
  slots : Int
  keyID : String
  state : Option (RawCipherText cc)
  sameLevel : state = none → c1.level = c0.level

/-- This ciphertext has its polynomials on the device. -/
def ofCiphertext (ciphertext : Ciphertext cc) : Object cc where
  c0 := ciphertext.c0
  c1 := ciphertext.c1
  NoiseLevel := ciphertext.NoiseLevel
  NoiseFactor := ciphertext.NoiseFactor
  slots := ciphertext.slots
  keyID := ciphertext.keyID
  state := none
  sameLevel := fun _ => ciphertext.sameLevel

namespace Object

/-- The load replaces the polynomials and the metadata, whatever the object held. -/
def load (self : Object cc) (rawct : RawCipherText cc) : Object cc where
  c0 := Poly.load self.c0 rawct.sub_0 rawct.moduli
  c1 := Poly.load self.c1 rawct.sub_1 rawct.moduli
  NoiseLevel := rawct.NoiseLevel
  NoiseFactor := rawct.Noise
  slots := rawct.slots
  keyID := rawct.keyid
  state := none
  sameLevel := by
    intro _
    simp only [Poly.load, rawct.sameRows]

def isOffloaded (self : Object cc) : Bool := self.state.isSome

def reload (self : Object cc) : Object cc :=
  match self.state with
  | none => self
  | some raw => self.load raw

def ensureResident (self : Object cc) : Object cc := self.reload

/-- The level of an offloaded ciphertext is that of its snapshot. -/
def getLevel (self : Object cc) : Int :=
  match self.state with
  | none => self.c0.level
  | some raw => (raw.numRes : Int) - 1

theorem ensureResident_state (self : Object cc) : self.ensureResident.state = none := by
  rw [ensureResident, reload]
  cases present : self.state with
  | none => exact present
  | some raw => rfl

/-- The rows cannot be resized to a negative number. -/
def store (self : Object cc) : Option (RawCipherText cc) :=
  let self := self.ensureResident
  if -1 ≤ self.c0.level then
    some
      { numRes := (self.c0.level + 1).toNat
        sub_0 := Poly.store self.c0
        sub_1 := Poly.store self.c1
        moduli := []
        Noise := self.NoiseFactor
        NoiseLevel := self.NoiseLevel
        keyid := self.keyID
        slots := self.slots
        sameRows := by
          rw [Poly.store_length, Poly.store_length, self.sameLevel (ensureResident_state _)] }
  else none

/-- The snapshot names the prime of each row, and the chain has a prime for each level up to the
highest one. -/
def offload (self : Object cc) : Option (Object cc) :=
  match self.state with
  | some _ => some self
  | none => do
      let raw ← self.store
      if (raw.numRes : Int) ≤ cc.L + 1 then
        some
          { self with
            c0 := Poly.freeGPU self.c0
            c1 := Poly.freeGPU self.c1
            state := some { raw with moduli := (List.range raw.numRes).map cc.prime }
            sameLevel := fun _ => rfl }
      else none

/-- This is what a method sees after it restored residency. -/
def current (self : Object cc) : Ciphertext cc where
  c0 := Poly.live self.ensureResident.c0
  c1 := Poly.live self.ensureResident.c1
  sameLevel := self.ensureResident.sameLevel self.ensureResident_state
  NoiseLevel := self.ensureResident.NoiseLevel
  NoiseFactor := self.ensureResident.NoiseFactor
  slots := self.ensureResident.slots
  keyID := self.ensureResident.keyID

end Object

namespace Poly

/-- The snapshot of the offload names the prime of each of its rows. -/
theorem limbsize_chain {count : Nat} (inside : (count : Int) ≤ cc.L + 1) :
    limbsize cc count ((List.range count).map cc.prime) = count := by
  have every : (List.range count).filter (fun i : Nat => (i : Int) ≤ cc.L ∧
      ((List.range count).map cc.prime)[i]? = some (cc.prime i)) = List.range count := by
    apply List.filter_eq_self.mpr
    intro i listed
    have below : i < count := List.mem_range.mp listed
    have named : ((List.range count).map cc.prime)[i]? = some (cc.prime i) := by
      rw [List.getElem?_map, List.getElem?_range below, Option.map_some]
    exact decide_eq_true ⟨by omega, named⟩
  rw [limbsize, every, List.length_range]

/-- A stored polynomial is loaded with the limbs that it had up to its level. -/
theorem live_load_store (poly other : RNSPoly cc) (low : -1 ≤ poly.level)
    (high : poly.level ≤ cc.L) :
    live (load other (store poly) ((List.range (poly.level + 1).toNat).map cc.prime)) =
      live poly := by
  have counted : limbsize cc (poly.level + 1).toNat
      ((List.range (poly.level + 1).toNat).map cc.prime) = (poly.level + 1).toNat :=
    limbsize_chain (by omega)
  have level : (load other (store poly)
      ((List.range (poly.level + 1).toNat).map cc.prime)).level = poly.level := by
    simp only [load, store_length, counted, Nat.sub_self]
    omega
  have limbs : (fun id : Nat => if (id : Int) ≤ poly.level then (load other (store poly)
      ((List.range (poly.level + 1).toNat).map cc.prime)).limb id else 0) =
        fun id : Nat => if (id : Int) ≤ poly.level then poly.limb id else 0 := by
    funext id
    by_cases inside : (id : Int) ≤ poly.level
    · have below : id < (poly.level + 1).toNat := by omega
      have row : (store poly)[id]? = some fun k => (poly.limb id k).val := by
        rw [store, List.getElem?_map, List.getElem?_range below, Option.map_some]
      rw [if_pos inside, if_pos inside]
      simp only [load, store_length, counted, if_pos below, row, loadConvert]
      funext k
      exact ZMod.natCast_zmod_val _
    · rw [if_neg inside, if_neg inside]
  simp only [live, level]
  rw [limbs]

end Poly

/-- The limbs up to the level and the metadata are what a ciphertext stands for. -/
def live (ciphertext : Ciphertext cc) : Ciphertext cc :=
  { ciphertext with
    c0 := Poly.live ciphertext.c0
    c1 := Poly.live ciphertext.c1
    sameLevel := ciphertext.sameLevel }

namespace Object

variable {self away : Object cc}

/-- The metadata of a resident object are those of its ciphertext. -/
theorem current_of_resident (resident : self.state = none) :
    self.current = live
      { c0 := self.c0, c1 := self.c1, sameLevel := self.sameLevel resident
        NoiseLevel := self.NoiseLevel, NoiseFactor := self.NoiseFactor, slots := self.slots
        keyID := self.keyID } := by
  have restored : self.ensureResident = self := by
    rw [ensureResident, reload, resident]
  simp only [current, restored, live]

/-- The offloaded object has a snapshot of the resident one and no limbs. -/
theorem offload_eq (resident : self.state = none) (offloaded : self.offload = some away) :
    -1 ≤ self.c0.level ∧ self.c0.level ≤ cc.L ∧ ∃ raw, self.store = some raw ∧
      away = { self with
        c0 := Poly.freeGPU self.c0
        c1 := Poly.freeGPU self.c1
        state := some { raw with moduli := (List.range raw.numRes).map cc.prime }
        sameLevel := fun _ => rfl } := by
  have restored : self.ensureResident = self := by
    rw [ensureResident, reload, resident]
  rw [offload, resident] at offloaded
  by_cases low : -1 ≤ self.c0.level
  · have stored : ∃ raw, self.store = some raw ∧ raw.numRes = (self.c0.level + 1).toNat := by
      simp only [store, restored]
      exact ⟨_, if_pos low, rfl⟩
    obtain ⟨raw, present, rows⟩ := stored
    simp only [present, Option.bind_eq_bind, Option.bind_some] at offloaded
    by_cases inside : (raw.numRes : Int) ≤ cc.L + 1
    · rw [if_pos inside] at offloaded
      cases offloaded
      exact ⟨low, by omega, raw, present, rfl⟩
    · rw [if_neg inside] at offloaded
      cases offloaded
  · have stuck : self.store = none := by
      simp only [store, restored]
      exact if_neg low
    rw [stuck] at offloaded
    cases offloaded

/-- The reload of a snapshot does not depend on what the object held. -/
theorem snapshot_current {changed : Object cc} (resident : self.state = none)
    (offloaded : self.offload = some away) (snapshot : changed.state = away.state) :
    changed.current = self.current := by
  obtain ⟨low, high, raw, stored, same⟩ := offload_eq resident offloaded
  have restored : self.ensureResident = self := by
    rw [ensureResident, reload, resident]
  have contents := stored
  simp only [store, restored, if_pos low, Option.some.injEq] at contents
  have equal : self.c1.level = self.c0.level := self.sameLevel resident
  have first := Poly.live_load_store self.c0 changed.c0 low high
  have second := Poly.live_load_store self.c1 changed.c1
    (by rw [equal]; exact low) (by rw [equal]; exact high)
  rw [equal] at second
  subst same contents
  rw [current_of_resident resident]
  simp only [current, ensureResident, reload, snapshot, load]
  exact Ciphertext.ext first second rfl rfl rfl rfl

/-- An offload followed by a reload keeps the limbs and the metadata. -/
theorem offload_current (offloaded : self.offload = some away) : away.current = self.current := by
  cases present : self.state with
  | some raw =>
      rw [offload, present] at offloaded
      cases offloaded
      rfl
  | none => exact snapshot_current present offloaded rfl

/-- The first object may be the offloaded form of the second one, which is resident. -/
structure Shadows (away here : Object cc) : Prop where
  resident : here.state = none
  current : away.current = here.current
  getLevel : away.getLevel = here.getLevel
  NoiseLevel : away.NoiseLevel = here.NoiseLevel
  NoiseFactor : away.NoiseFactor = here.NoiseFactor
  slots : away.slots = here.slots
  keyID : away.keyID = here.keyID

/-- The metadata stay in the object, and the snapshot answers the level. -/
theorem offload_shadows (resident : self.state = none) (offloaded : self.offload = some away) :
    Shadows away self := by
  have contents : away.current = self.current := offload_current offloaded
  obtain ⟨low, high, raw, stored, same⟩ := offload_eq resident offloaded
  have restored : self.ensureResident = self := by
    rw [ensureResident, reload, resident]
  have rows : raw.numRes = (self.c0.level + 1).toNat := by
    simp only [store, restored, if_pos low, Option.some.injEq] at stored
    rw [← stored]
  have level : away.getLevel = self.getLevel := by
    rw [same]
    simp only [getLevel, resident, rows]
    omega
  refine ⟨resident, contents, level, ?_, ?_, ?_, ?_⟩ <;> rw [same]

end Object
end Fideslib.Offload
