/-
This file models the parameters of GPU contexts and the registry of these contexts.
-/

import Fideslib.Library.Lexicographic
import Fideslib.Library.Run
import Mathlib.Data.List.AList
import Mathlib.Data.Nat.Size

namespace Fideslib.Registry
open Lexicographic

/-- A floating point value is only copied and compared here, so its bits suffice. -/
abbrev Double := UInt64

inductive LimbType where
  | U32
  | U64
deriving DecidableEq, Repr

inductive ScalingTechnique where
  | FIXEDMANUAL
  | FIXEDAUTO
  | FLEXIBLEAUTO
  | FLEXIBLEAUTOEXT
  | NORESCALE
deriving DecidableEq, Repr

/-- An enumeration compares by its numbers. -/
def ScalingTechnique.number : ScalingTechnique → Nat
  | .FIXEDMANUAL => 0
  | .FIXEDAUTO => 1
  | .FLEXIBLEAUTO => 2
  | .FLEXIBLEAUTOEXT => 3
  | .NORESCALE => 4

theorem ScalingTechnique.number_injective : Function.Injective ScalingTechnique.number := by
  intro first second same
  cases first <;> cases second <;> first | rfl | cases same

structure PrimeRecord where
  p : Nat := 2 ^ 31 - 1
  type : Option LimbType := none
  bits : Int := -1
deriving DecidableEq, Repr

/-- This record holds what a context takes over from the host library. -/
structure RawParams where
  N : Int
  L : Int
  K : Int
  logN : Int
  scalingTechnique : ScalingTechnique
  moduli : List Nat := []
  root_of_unity : List Nat := []
  cyclotomic_order : List Nat := []
  SPECIALmoduli : List Nat := []
  SPECIALroot_of_unity : List Nat := []
  SPECIALcyclotomic_order : List Nat := []
  psi : List (Int × List Nat) := []
  psi_inv : List (Int × List Nat) := []
  N_inv : List Nat := []
  ModReduceFactor : List Double := []
  dnum : Int
  PARTITIONmoduli : List (List Nat) := []
  PartQlHatInvModq : List (List (List Nat)) := []
  PartQlHatModp : List (List (List (List Nat))) := []
  PHatInvModp : List Nat := []
  PHatModq : List (List Nat) := []
  PInvModq : List Nat := []
  SparseAlphaPModq : List (List Nat) := []
  SparseKSpInv : List Double := []
  SparseAlphaQlModp : List (List Nat) := []
  SparseQlInv : List Double := []
  ScalingFactorReal : List Double := []
  ScalingFactorRealBig : List Double := []
  coefficientsCheby : List Double := []
  doubleAngleIts : Int := 0
  bootK : Double
  correctionFactor : Nat
  sparse_encaps : Bool := false
  p : Int
deriving DecidableEq, Repr

structure Parameters where
  logN : Int
  L : Int
  dnum : Int
  K : Int := -1
  primes : List PrimeRecord
  Sprimes : List PrimeRecord
  ModReduceFactor : List Double := []
  ScalingFactorReal : List Double := []
  ScalingFactorRealBig : List Double := []
  scalingTechnique : ScalingTechnique
  raw : Option RawParams := none
  batch : Int := 100
deriving DecidableEq, Repr

namespace Parameters

def moduli (param : Parameters) : List Nat := param.primes.map PrimeRecord.p

def specialModuli (param : Parameters) : List Nat := param.Sprimes.map PrimeRecord.p

/-- The last test only asks whether the raw parameters are present. -/
def lessRaw (a b : Parameters) : Bool := !a.raw.isSome && b.raw.isSome

/-- This is the order of the context map. -/
def less : Parameters → Parameters → Bool :=
  byKey logN <| byKey L <| byKey dnum <| byKey K <|
  byKey (fun param => param.scalingTechnique.number) <|
  byKey (fun param => param.moduli.length) fun a b =>
    byEntries a.moduli b.moduli <|
      byKey (fun param => param.specialModuli.length) (fun a b =>
        byEntries a.specialModuli b.specialModuli (lessRaw a b)) a b

/-- Two parameters are equal for the map when neither is less. -/
def same (a b : Parameters) : Bool := !less a b && !less b a

theorem lessRaw_eq_byKey : lessRaw = byKey (fun param : Parameters => param.raw.isSome)
    fun _ _ => false := by
  funext a b
  unfold lessRaw byKey
  cases first : a.raw <;> cases second : b.raw <;> simp [first, second]

/-- The order is a chain of keys. -/
theorem less_eq_byKey : less =
    (byKey logN <| byKey L <| byKey dnum <| byKey K <|
      byKey (fun param => param.scalingTechnique.number) <|
      byKey (fun param => param.moduli.length) <| byKey moduli <|
      byKey (fun param => param.specialModuli.length) <| byKey specialModuli <|
      byKey (fun param => param.raw.isSome) fun _ _ => false) := by
  unfold less
  rw [byKey_length_byEntries moduli, byKey_length_byEntries specialModuli, lessRaw_eq_byKey]

/-- The order of the context map is a strict weak order. -/
theorem less_strictWeak : IsStrictWeakOrder Parameters fun a b => less a b = true := by
  rw [less_eq_byKey]
  have bottom : IsStrictWeakOrder Parameters fun _ _ => false = true :=
    { irrefl := fun _ => Bool.false_ne_true
      trans := fun _ _ _ impossible => absurd impossible Bool.false_ne_true
      incomp_trans := fun _ _ _ ties _ => ties }
  exact byKey_strictWeak _ <| byKey_strictWeak _ <| byKey_strictWeak _ <| byKey_strictWeak _ <|
    byKey_strictWeak _ <| byKey_strictWeak _ <| byKey_strictWeak _ <| byKey_strictWeak _ <|
    byKey_strictWeak _ <| byKey_strictWeak _ bottom

/-- These are the fields that the order reads. -/
structure Identity where
  logN : Int
  L : Int
  dnum : Int
  K : Int
  scalingTechnique : ScalingTechnique
  moduli : List Nat
  specialModuli : List Nat
  hasRaw : Bool
deriving DecidableEq

def identity (param : Parameters) : Identity where
  logN := param.logN
  L := param.L
  dnum := param.dnum
  K := param.K
  scalingTechnique := param.scalingTechnique
  moduli := param.moduli
  specialModuli := param.specialModuli
  hasRaw := param.raw.isSome

/-- Two parameters are equal for the map exactly when the fields it reads agree. -/
theorem same_iff (a b : Parameters) : same a b = true ↔ a.identity = b.identity := by
  unfold same
  rw [less_eq_byKey, Bool.and_eq_true, Bool.not_eq_true', Bool.not_eq_true']
  simp only [byKey_tie_iff, and_true, identity, Identity.mk.injEq,
    ScalingTechnique.number_injective.eq_iff]
  constructor
  · rintro ⟨logN, L, dnum, K, technique, _, moduli, _, special, raw⟩
    exact ⟨logN, L, dnum, K, technique, moduli, special, raw⟩
  · rintro ⟨logN, L, dnum, K, technique, moduli, special, raw⟩
    exact ⟨logN, L, dnum, K, technique, by rw [moduli], moduli, by rw [special], special, raw⟩

@[simp] theorem same_self (a : Parameters) : same a a = true := (same_iff a a).mpr rfl

theorem same_comm (a b : Parameters) : same a b = same b a := by
  rw [Bool.eq_iff_iff, same_iff, same_iff, eq_comm]

/-- Equal parameters stand for each other. -/
theorem same_congr {a b : Parameters} (equal : same a b = true) (c : Parameters) :
    same a c = same b c := by
  rw [Bool.eq_iff_iff, same_iff, same_iff, (same_iff a b).mp equal]

end Parameters
end Fideslib.Registry

namespace Fideslib.Registry

abbrev KeyHash := String

/-- The per-device pools hold this many devices. -/
def MAXG : Nat := 8

inductive ContextError where
  | runtimeError (message : String)
  | assertion (condition : String)
  | lengthError
  | divisionByZero
  | outOfBounds
deriving DecidableEq, Repr

/-- The sum fills in the open bits, and its assertion lets a read of one prime too many pass. -/
def computeLogQ (asserts : Bool) (L : Int) (primes : List PrimeRecord) :
    Except ContextError (Int × List PrimeRecord) :=
  if asserts ∧ ¬L ≤ primes.length then .error (.assertion "L <= (int)primes.size()")
  else if L < primes.length then
    let filled := primes.mapIdx fun i prime =>
      if (i : Int) ≤ L ∧ prime.bits = -1 then { prime with bits := Nat.size prime.p } else prime
    .ok (((filled.take (L + 1).toNat).map PrimeRecord.bits).sum, filled)
  else .error .outOfBounds

def validateDnum (dnum : Int) : Except ContextError Int :=
  if dnum < 1 then
    .error (.runtimeError
      "dnum must be >= 1 (the digit decomposition needs at least one digit)")
  else .ok dnum

/-- A resize cuts the list or pads it with default records. -/
def resize (count : Int) (primes : List PrimeRecord) : Except ContextError (List PrimeRecord) :=
  if count < 0 then .error .lengthError
  else .ok (primes.take count.toNat ++ List.replicate (count.toNat - primes.length) { : PrimeRecord })

def findDigitOnParam (raw : RawParams) (modulus : Nat) : Int :=
  match raw.PARTITIONmoduli.findIdx? (·.contains modulus) with
  | some digit => digit
  | none => -1

/-- The digits must ascend and stay inside the range. -/
def digitsAscend (dnum : Int) : Int → List Int → Bool
  | _, [] => true
  | previous, digit :: rest =>
      if digit < previous ∨ digit < 0 ∨ digit ≥ dnum then false else digitsAscend dnum digit rest

/-- The construction keeps only the digit of each prime here. -/
def generateMeta (devs : List Int) (dnum : Int) (prime : List PrimeRecord)
    (raw : Option RawParams) : Except ContextError (List Int) :=
  let digits := prime.mapIdx fun i record =>
    match raw with
    | none => ((i : Int) * dnum).tdiv prime.length
    | some raw => findDigitOnParam raw record.p
  if devs.isEmpty ∧ ¬prime.isEmpty then .error .divisionByZero
  else if digitsAscend dnum (-1) digits then .ok digits
  else .error (.runtimeError ("digit decomposition must be a contiguous ascending partition of the prime order, with every prime assigned to " ++
    "exactly one of the dnum digits"))

def computeLogQ_d (dnum : Int) (digits : List Int) (prime : List PrimeRecord) : List Int :=
  (List.range dnum.toNat).map fun (digit : Nat) =>
    (((digits.zip prime).filter fun entry => entry.1 = (digit : Int)).map fun entry => entry.2.bits).sum

/-- This loop takes special primes until their bits cover the largest digit. -/
def coverDigit (logMaxD : Int) : Int → List PrimeRecord → Int × Nat × List PrimeRecord
  | bits, [] => (bits, 0, [])
  | bits, prime :: rest =>
      if bits < logMaxD then
        let filled := if prime.bits ≤ 0 then { prime with bits := Nat.size prime.p } else prime
        let result := coverDigit logMaxD (bits + (filled.bits - 1)) rest
        (result.1, result.2.1 + 1, filled :: result.2.2)
      else (bits, 0, prime :: rest)

/-- Without assertions too few special primes are accepted. -/
def computeK (asserts : Bool) (logQ_d : List Int) (Sprimes : List PrimeRecord) (K : Int) :
    Except ContextError (Int × List PrimeRecord) :=
  let logMaxD := logQ_d.foldl max (logQ_d.headD 0)
  let (bits, count, filled) := coverDigit logMaxD 0 Sprimes
  if K ≠ -1 then .ok (K, filled)
  else if asserts ∧ ¬bits ≥ logMaxD then .error (.assertion "bits >= logMaxD")
  else .ok (count, filled)

/-- The constructor normalizes its copy of the parameters before it looks for a duplicate. -/
def normalize (asserts : Bool) (param : Parameters) (devs : List Int) :
    Except ContextError Parameters := do
  let (_, primes) ← computeLogQ asserts param.L param.primes
  let dnum ← validateDnum param.dnum
  let prime ← resize (param.L + 1) primes
  let digits ← generateMeta devs dnum prime param.raw
  let (K, Sprimes) ← computeK asserts (computeLogQ_d dnum digits prime) param.Sprimes param.K
  let (_, filled) ← computeLogQ asserts (K - 1) Sprimes
  let specialPrime ← resize K filled
  return { param with primes := prime, Sprimes := specialPrime, K := K }

/-- A handle stands for a shared pointer: the address of the context and what never changes in it. -/
structure Context where
  uid : Nat
  param : Parameters
  GPUid : List Int
deriving DecidableEq, Repr

/-- This record holds the owner and the tag of one secret-switching key. -/
structure SecretSwitchingKey where
  keyID : KeyHash
  cc : Context
deriving DecidableEq, Repr

structure SwitchEntry where
  first : Parameters
  second : Parameters
  keys : AList fun _ : KeyHash => SecretSwitchingKey

/-- This record holds the build's assertions, the global registries and every shared owner. -/
structure State where
  asserts : Bool := false
  mapParamContext : List Context := []
  mapParamSwitch : List SwitchEntry := []
  currentContext : Option Context := none
  sparseContext : Context → AList fun _ : Int => Context := fun _ => ∅
  owners : AList fun _ : Nat => Context := ∅
  nextUid : Nat := 0

namespace SwitchEntry

def touches (entry : SwitchEntry) (param : Parameters) : Bool :=
  entry.first.same param || entry.second.same param

def links (entry : SwitchEntry) (a b : Parameters) : Bool :=
  entry.first.same a && entry.second.same b

def clear (entry : SwitchEntry) : SwitchEntry := { entry with keys := ∅ }

/-- An emplacement leaves a stored key in place. -/
def emplace (entry : SwitchEntry) (tag : KeyHash) (key : SecretSwitchingKey) : SwitchEntry :=
  match entry.keys.lookup tag with
  | some _ => entry
  | none => { entry with keys := entry.keys.insert tag key }

end SwitchEntry

namespace State

/-- The context map finds an entry by its order. -/
def find (state : State) (param : Parameters) : Option Context :=
  state.mapParamContext.find? fun context => context.param.same param

/-- The weak pointers of a context are its auxiliary contexts, one for each slot count. -/
def auxiliaries (state : State) (context : Context) : List Context :=
  (state.sparseContext context).entries.map Sigma.snd

/-- A context lives while the map, the current pointer, an owner or a local variable holds it. -/
def alive (state : State) (held : List Context) (context : Context) : Bool :=
  state.mapParamContext.contains context || state.currentContext == some context ||
    (state.owners.entries.map Sigma.snd).contains context || held.contains context

/-- The destructor drops every entry that touches its parameters. -/
def destruct (state : State) (context : Context) : State :=
  { state with
    mapParamSwitch := state.mapParamSwitch.filter fun entry => !entry.touches context.param }

/-- A dropped pointer destroys its context when nothing else holds it. -/
def release (held : List Context) (state : State) (context : Context) : State :=
  if state.alive held context then state else state.destruct context

def setCurrentContext (held : List Context) (context : Context) (state : State) : State :=
  if state.currentContext = some context then state
  else
    let moved := { state with currentContext := some context }
    match state.currentContext with
    | none => moved
    | some old => moved.release held old

/-- A found duplicate is destroyed again, which edits the switching keys. -/
def genCryptoContextGPU (param : Parameters) (devs : List Int) (state : State) :
    Except ContextError (Context × State) :=
  if devs.length > MAXG then
    .error (.runtimeError ("FIDESlib: cannot build a context for " ++ toString devs.length ++
      " devices: the per-device pools hold MAXG = " ++ toString MAXG ++
      ". Use fewer devices, or raise MAXG in src/forwardDefs.cuh and rebuild."))
  else
    match normalize state.asserts param devs with
    | .error failure => .error failure
    | .ok normal =>
        let data : Context := ⟨state.nextUid, normal, devs⟩
        let numbered := { state with nextUid := state.nextUid + 1 }
        match state.find normal with
        | none =>
            .ok (data, { numbered with
              mapParamContext := numbered.mapParamContext ++ [data]
              sparseContext := Function.update numbered.sparseContext data ∅
            }.setCurrentContext [] data)
        | some registered =>
            .ok (registered, (numbered.setCurrentContext [] registered).destruct data)

/-- The last entry for the pair takes the key. -/
def emplaceKey (first second : Parameters) (tag : KeyHash) (key : SecretSwitchingKey)
    (entries : List SwitchEntry) : List SwitchEntry :=
  match entries.reverse.findIdx? (·.links first second) with
  | some back => entries.modify (entries.length - 1 - back) (·.emplace tag key)
  | none => entries ++ [SwitchEntry.emplace ⟨first, second, ∅⟩ tag key]

def addSecretSwitchingKey (keyA keyB : SecretSwitchingKey) (state : State) : State :=
  let forward := emplaceKey keyA.cc.param keyB.cc.param keyB.keyID keyB state.mapParamSwitch
  { state with
    mapParamSwitch := emplaceKey keyB.cc.param keyA.cc.param keyA.keyID keyA forward }

/-- The first entry for the pair that holds the tag answers. -/
def getSecretSwitchingKey (state : State) (a b : Parameters) (tag : KeyHash) :
    Option SecretSwitchingKey :=
  (state.mapParamSwitch.filter (·.links a b)).findSome? fun entry => entry.keys.lookup tag

/-- Some registered context uses the auxiliary. -/
def shared (state : State) (auxiliary : Context) : Bool :=
  state.mapParamContext.any fun other => (state.auxiliaries other).contains auxiliary

/-- This step clears the keys of the parameters and erases their entry. -/
def unregister (held : List Context) (param : Parameters) (state : State) : State :=
  let erased := { state with
    mapParamSwitch := state.mapParamSwitch.map fun (entry : SwitchEntry) =>
      if entry.touches param then entry.clear else entry
    mapParamContext := state.mapParamContext.filter fun context => !context.param.same param }
  match erased.currentContext with
  | none => erased
  | some current =>
      if current.param.same param then
        State.release held { erased with currentContext := none } current
      else erased

/-- The locked auxiliaries of a retiring context outlive its registry entry. -/
def lockAuxiliaries (state : State) (held : List Context) : Option Context → List Context
  | none => []
  | some retiring =>
      (state.auxiliaries retiring).filter fun auxiliary =>
        state.alive (retiring :: held) auxiliary && auxiliary ≠ retiring

/-- The recursion has no bound of its own, so it returns nothing when the fuel runs out. -/
def deregisterCryptoContextGPU : Nat → List Context → Parameters → State → Option State
  | 0, _, _, _ => none
  | fuel + 1, held, param, state =>
      let retiring := state.find param
      let auxiliaries := state.lockAuxiliaries held retiring
      let inside := retiring.toList ++ auxiliaries ++ held
      (auxiliaries.foldlM (fun (current : State) (auxiliary : Context) =>
        if current.shared auxiliary then some current
        else deregisterCryptoContextGPU fuel inside auxiliary.param current)
        (state.unregister inside param)).map fun retired =>
          (auxiliaries ++ retiring.toList).foldl (release held) retired

/-- An owner deregisters its context and then drops its pointer. -/
def destroyOwner (fuel : Nat) (owner : Nat) (state : State) : Option State :=
  match state.owners.lookup owner with
  | none => some state
  | some context =>
      (deregisterCryptoContextGPU fuel [context] context.param state).map fun retired =>
        State.release [] { retired with owners := retired.owners.erase owner } context

/-- A loaded owner keeps its context. -/
def loadContext (owner : Nat) (param : Parameters) (devs : List Int) (state : State) : State :=
  match state.owners.lookup owner with
  | some _ => state
  | none =>
      match state.genCryptoContextGPU param devs with
      | .error _ => state
      | .ok (context, after) => { after with owners := after.owners.insert owner context }

/-- An encapsulated bootstrap builds an auxiliary context and links it by a weak pointer. -/
def addBootstrapKeys (owner : Nat) (slots : Int) (sparse : Parameters) (tag : KeyHash)
    (state : State) : State :=
  match state.owners.lookup owner with
  | none => state
  | some context =>
      match state.genCryptoContextGPU sparse (context.GPUid.take 1) with
      | .error _ => state
      | .ok (auxiliary, after) =>
          let switched := after.addSecretSwitchingKey ⟨tag, auxiliary⟩ ⟨tag, context⟩
          { switched with
            sparseContext := Function.update switched.sparseContext context
              ((switched.sparseContext context).insert slots auxiliary) }

def clearBootPrecomputation (owner : Nat) (slots : Int) (state : State) : State :=
  match state.owners.lookup owner with
  | none => state
  | some context =>
      { state with
        sparseContext := Function.update state.sparseContext context
          (if slots = -1 then ∅ else (state.sparseContext context).erase slots) }

def clearParamSwitchKeys (owner : Nat) (tag : KeyHash) (state : State) : State :=
  match state.owners.lookup owner with
  | none => state
  | some context =>
      { state with
        mapParamSwitch :=
          if tag.isEmpty then []
          else state.mapParamSwitch.map fun entry =>
            if entry.touches context.param then { entry with keys := entry.keys.erase tag }
            else entry }

/-- Evaluation makes the context of an owner or one of its auxiliaries current. -/
def useContext (owner : Nat) (slots : Option Int) (state : State) : State :=
  match state.owners.lookup owner with
  | none => state
  | some context =>
      match slots with
      | none => state.setCurrentContext [] context
      | some slots =>
          match (state.sparseContext context).lookup slots with
          | none => state
          | some auxiliary =>
              if state.alive [] auxiliary then state.setCurrentContext [] auxiliary else state

end State

/-- These calls change the registry. -/
inductive Call where
  | loadContext (owner : Nat) (param : Parameters) (devs : List Int)
  | addBootstrapKeys (owner : Nat) (slots : Int) (sparse : Parameters) (tag : KeyHash)
  | useContext (owner : Nat) (slots : Option Int)
  | clearBootPrecomputation (owner : Nat) (slots : Int)
  | clearParamSwitchKeys (owner : Nat) (tag : KeyHash)
  | destroyOwner (owner : Nat)

def Call.run (fuel : Nat) (state : State) : Call → Option State
  | .loadContext owner param devs => some (state.loadContext owner param devs)
  | .addBootstrapKeys owner slots sparse tag => some (state.addBootstrapKeys owner slots sparse tag)
  | .useContext owner slots => some (state.useContext owner slots)
  | .clearBootPrecomputation owner slots => some (state.clearBootPrecomputation owner slots)
  | .clearParamSwitchKeys owner tag => some (state.clearParamSwitchKeys owner tag)
  | .destroyOwner owner => state.destroyOwner fuel owner

def Call.Step (call : Call) (before after : State) : Prop :=
  ∃ fuel, call.run fuel before = some after

/-- A registry is reachable when some calls lead to it from the empty one of a build. -/
def Reachable (state : State) : Prop :=
  ∃ asserts, StateMachine.Run Call.Step (fun _ _ => True) { asserts := asserts } state

end Fideslib.Registry
