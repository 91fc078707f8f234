/-
This file models the calls that set up, load and run the bootstrapping of a context.
-/

import Fideslib.Api.Evaluation
import Fideslib.Library.Run

namespace Fideslib.Api.BootstrapSetup

/-- The distributions of a secret key. -/
inductive SecretKeyDist
  | GAUSSIAN
  | UNIFORM_TERNARY
  | SPARSE_TERNARY
  | SPARSE_ENCAPSULATED
deriving DecidableEq, Repr

/-- The reference library keeps one precomputation for each slot count and the keys of a context.
Its calls report whether they returned. -/
structure Reference (Store Args : Type) where
  cyclotomicOrder : Nat
  /-- The flag of the decode-first encoding in the precomputation of a slot count. -/
  precom : Store → Nat → Option Bool
  EvalBootstrapSetup : SecretKeyDist → Args → Nat → Bool → Store → Bool × Store
  EvalBootstrapKeyGen : Nat → Store → Bool × Store
  GenRotationKeys : Nat → Store → Store
  /-- All keys that the context lists can be uploaded. -/
  hasKeys : Store → Bool
  hasBootstrapKeys : Store → Nat → Bool

/-- These fields of a device precomputation decide which pipeline runs. -/
structure Precomputation where
  btsfirstboot : Bool
  isFBT : Bool := false
  isFEFunc : Bool := false
deriving DecidableEq, Repr

/-- The exceptions of the calls. -/
inductive Failure
  | openFHE (message : String)
  | runtime (message : String)
  | invalid (message : String)
  /-- The reference library throws. -/
  | reference
deriving DecidableEq, Repr

structure State (Store : Type) where
  store : Store
  keyDist : SecretKeyDist
  loaded : Bool
  bootstrap_mode : Nat → Option BootstrapMode
  slots_bootstrap : List Nat
  /-- The precomputations of the device context. -/
  boot : Nat → Option Precomputation

/-- A call returns, throws or follows the end of a map. -/
inductive Outcome (Store : Type)
  | returned (state : State Store)
  | threw (failure : Failure) (state : State Store)
  | undefined

section Calls

variable {Store Args : Type} (reference : Reference Store Args)

def ResolveBootstrapSlots (slots : Nat) : Nat :=
  if slots ≠ 0 then slots else reference.cyclotomicOrder / 4

def modeOf (btsfirstboot : Bool) : BootstrapMode :=
  if btsfirstboot then .stcFirst else .standard

def CheckBootstrapModeConflict (state : State Store) (slot : Nat) (mode : BootstrapMode) :
    Option Failure :=
  match state.bootstrap_mode slot with
  | none => none
  | some recorded =>
      if recorded ≠ .unconfigured ∧ recorded ≠ mode then
        some (.openFHE ("Bootstrap setup conflict for slots=" ++ toString slot ++
          ": already configured for " ++ bootstrapModeName recorded ++
          "; cannot reconfigure it for " ++ bootstrapModeName mode ++
          ". The standard and SlotsToCoeffs-first bootstraps share one precomputation " ++
          "entry per slot count."))
      else none

def RecordBootstrapMode (slot : Nat) (mode : BootstrapMode) (state : State Store) : Outcome Store :=
  match CheckBootstrapModeConflict state slot mode with
  | some failure => .threw failure state
  | none =>
      .returned
        { state with bootstrap_mode := Function.update state.bootstrap_mode slot (some mode) }

def EvalBootstrapSetup (args : Args) (slots : Nat) (btsfirstboot : Bool) (state : State Store) :
    Outcome Store :=
  if state.loaded then .threw (.openFHE "Context is already loaded") state
  else
    match CheckBootstrapModeConflict state (ResolveBootstrapSlots reference slots)
        (modeOf btsfirstboot) with
    | some failure => .threw failure state
    | none =>
        if state.keyDist = .GAUSSIAN then .threw (.openFHE "Unsupported key distribution") state
        else
          let setup := reference.EvalBootstrapSetup state.keyDist args slots btsfirstboot state.store
          let state := { state with store := setup.2 }
          if setup.1 then
            RecordBootstrapMode (ResolveBootstrapSlots reference slots) (modeOf btsfirstboot) state
          else .threw .reference state

/-- The rotation indexes are read from the entry of the reference map, which has to exist. -/
def GenBootstrapKeys (slots : Nat) (state : State Store) : Outcome Store :=
  match reference.precom state.store slots with
  | none => .undefined
  | some _ => .returned { state with store := reference.GenRotationKeys slots state.store }

def EvalBootstrapKeyGen (slots : Nat) (state : State Store) : Outcome Store :=
  if state.loaded then .threw (.openFHE "Context is already loaded") state
  else
    let state := { state with slots_bootstrap := state.slots_bootstrap ++ [slots] }
    let keygen := reference.EvalBootstrapKeyGen slots state.store
    let state := { state with store := keygen.2 }
    if keygen.1 then GenBootstrapKeys reference slots state else .threw .reference state

/-- A slot count that the device has already only gets its keys. -/
def AddBootstrapPrecomputation (slots : Nat) (state : State Store) : Outcome Store :=
  match reference.precom state.store slots with
  | none => .undefined
  | some btsfirstboot =>
      let state :=
        if (state.boot slots).isSome then state
        else { state with boot := Function.update state.boot slots (some { btsfirstboot }) }
      if reference.hasBootstrapKeys state.store slots then .returned state
      else .threw .reference state

def loadBootstrapping : List Nat → State Store → Outcome Store
  | [], state => .returned state
  | slots :: rest, state =>
      match AddBootstrapPrecomputation reference slots state with
      | .returned state => loadBootstrapping rest state
      | .threw failure state => .threw failure state
      | .undefined => .undefined

/-- A context that is registered stays registered when the call throws. -/
def LoadContext (state : State Store) : Outcome Store :=
  if state.loaded then .returned state
  else if !reference.hasKeys state.store then .threw .reference state
  else
    match loadBootstrapping reference state.slots_bootstrap state with
    | .returned state => .returned { state with loaded := true }
    | .threw failure state => .threw failure state
    | .undefined => .undefined

def CheckBootstrapMode (state : State Store) (slot : Nat) (allowed : List BootstrapMode)
    (who : String) : Option Failure :=
  match state.bootstrap_mode slot with
  | none | some .unconfigured =>
      some (.openFHE (who ++ ": no bootstrapping precomputation for slots=" ++ toString slot ++
        " (run the matching setup before LoadContext)."))
  | some mode =>
      if mode ∈ allowed then none
      else some (.openFHE (who ++ ": slots=" ++ toString slot ++ " is configured for " ++
        bootstrapModeName mode ++ ", which is incompatible with this evaluation."))

def GetBootPrecomputation (state : State Store) (slots : Nat) : Except Failure Precomputation :=
  match state.boot slots with
  | none => .error (.runtime ("No bootstrap precomputation for " ++ toString slots ++
      " slots (run EvalBootstrapSetup/EvalBootstrapKeyGen before LoadContext)"))
  | some pre => .ok pre

def checkIterations (numIterations : Nat) : Except Failure Unit :=
  if numIterations ≠ 1 ∧ numIterations ≠ 2 then
    .error (.invalid "CKKS Bootstrapping only supported for 1 or 2 iterations.")
  else .ok ()

/-- These are the checks before the decode-first pipeline starts. -/
def BootstrapStCFirst (state : State Store) (slots numIterations : Nat) : Except Failure Unit := do
  let pre ← GetBootPrecomputation state slots
  if pre.isFBT || pre.isFEFunc then
    throw (.invalid ("CKKS BootstrapStCFirst: slots=" ++ toString slots ++
      " is configured for a reserved mode, not the standard bootstrap."))
  if !pre.btsfirstboot then
    throw (.invalid ("CKKS BootstrapStCFirst: slots=" ++ toString slots ++
      " was not set up with EvalBootstrapSetup(btsfirstboot=true); the SlotsToCoeffs-first pipeline " ++
      "needs the decode-first precomputation."))
  checkIterations numIterations

def Bootstrap (state : State Store) (slots numIterations : Nat) : Except Failure Unit := do
  let pre ← GetBootPrecomputation state slots
  if pre.isFBT || pre.isFEFunc then
    throw (.invalid ("CKKS Bootstrap: slots=" ++ toString slots ++
      " is configured for a reserved mode, not the standard bootstrap."))
  if pre.btsfirstboot then BootstrapStCFirst state slots numIterations
  else checkIterations numIterations

/-- A ciphertext is uploaded to the loaded context and its slot count is checked before the pipeline
starts. -/
def evaluate (who : String) (allowed : List BootstrapMode) (pipeline : Except Failure Unit)
    (slots : Nat) (state : State Store) : Outcome Store :=
  if !state.loaded then .threw (.openFHE "CryptoContext not loaded to any device") state
  else
    match CheckBootstrapMode state slots allowed who with
    | some failure => .threw failure state
    | none =>
        match pipeline with
        | .error failure => .threw failure state
        | .ok () => .returned state

/-- The evaluations that start a pipeline. -/
inductive Evaluation
  | EvalBootstrap
  | EvalBootstrapInPlace
  | EvalBootstrapStCFirst
deriving DecidableEq, Repr

namespace Evaluation

def who : Evaluation → String
  | EvalBootstrap => "EvalBootstrap"
  | EvalBootstrapInPlace => "EvalBootstrapInPlace"
  | EvalBootstrapStCFirst => "EvalBootstrapStCFirst"

def allowed : Evaluation → List BootstrapMode
  | EvalBootstrap | EvalBootstrapInPlace => [.standard, .stcFirst]
  | EvalBootstrapStCFirst => [.stcFirst]

def pipeline (state : State Store) (slots numIterations : Nat) : Evaluation → Except Failure Unit
  | EvalBootstrap | EvalBootstrapInPlace => Bootstrap state slots numIterations
  | EvalBootstrapStCFirst => BootstrapStCFirst state slots numIterations

/-- An evaluation for a ciphertext with this slot count. -/
def run (evaluation : Evaluation) (slots numIterations : Nat) (state : State Store) :
    Outcome Store :=
  evaluate evaluation.who evaluation.allowed (evaluation.pipeline state slots numIterations) slots
    state

end Evaluation

/-- The calls on one context with devices. -/
inductive Call (Args : Type)
  | EvalBootstrapSetup (args : Args) (slots : Nat) (btsfirstboot : Bool)
  | EvalBootstrapKeyGen (slots : Nat)
  | LoadContext
  | evaluate (evaluation : Evaluation) (slots numIterations : Nat)

def Call.outcome (call : Call Args) (state : State Store) : Outcome Store :=
  match call with
  | EvalBootstrapSetup args slots btsfirstboot =>
      BootstrapSetup.EvalBootstrapSetup reference args slots btsfirstboot state
  | EvalBootstrapKeyGen slots => BootstrapSetup.EvalBootstrapKeyGen reference slots state
  | LoadContext => BootstrapSetup.LoadContext reference state
  | evaluate evaluation slots numIterations => evaluation.run slots numIterations state

/-- A session remembers the setups and the key generations that returned. -/
structure Session (Store : Type) where
  state : State Store
  setups : List (Nat × BootstrapMode)
  keygens : List Nat

def Session.remember (session : Session Store) (state : State Store) : Call Args → Session Store
  | .EvalBootstrapSetup _ slots btsfirstboot =>
      { session with state, setups := session.setups ++ [(slots, modeOf btsfirstboot)] }
  | .EvalBootstrapKeyGen slots => { session with state, keygens := session.keygens ++ [slots] }
  | _ => { session with state }

/-- A call that throws is not remembered, and an undefined one has no next session. -/
inductive Step (call : Call Args) (before : Session Store) : Session Store → Prop
  | returns {state : State Store} (returned : call.outcome reference before.state = .returned state) :
      Step call before (before.remember state call)
  | throws {failure : Failure} {state : State Store}
      (threw : call.outcome reference before.state = .threw failure state) :
      Step call before { before with state }

/-- A key generation names a slot count that a setup has recorded. -/
def Named (call : Call Args) (before : Session Store) : Prop :=
  match call with
  | .EvalBootstrapKeyGen slots =>
      before.state.loaded = false → slots ≠ 0 ∧ (before.state.bootstrap_mode slots).isSome
  | _ => True

/-- A new context has no setup and no keys. -/
def fresh (store : Store) (keyDist : SecretKeyDist) : Session Store where
  state := ⟨store, keyDist, false, fun _ => none, [], fun _ => none⟩
  setups := []
  keygens := []

/-- The mode map, the slot list and the device precomputations are in step. -/
structure InStep (allowed : Call Args → Session Store → Prop) (session : Session Store) : Prop where
  /-- A conflicting setup throws and changes nothing. -/
  conflict : ∀ (args : Args) slots btsfirstboot recorded,
    session.state.bootstrap_mode (ResolveBootstrapSlots reference slots) = some recorded →
    recorded ≠ modeOf btsfirstboot → ∃ failure,
      EvalBootstrapSetup reference args slots btsfirstboot session.state =
        .threw failure session.state
  /-- A loaded context has a precomputation for each key generation. -/
  registered : session.state.loaded = true → ∀ slots ∈ session.keygens,
    (session.state.boot (ResolveBootstrapSlots reference slots)).isSome
  /-- An evaluation is accepted exactly after a setup and a key generation for its slot count. -/
  accepted : ∀ (evaluation : Evaluation) slots numIterations,
    numIterations = 1 ∨ numIterations = 2 →
    ((∃ state, evaluation.run slots numIterations session.state = .returned state) ↔
      session.state.loaded = true ∧
        (∃ setup ∈ session.setups, ResolveBootstrapSlots reference setup.1 = slots ∧
          setup.2 ∈ evaluation.allowed) ∧
        ∃ keygen ∈ session.keygens, ResolveBootstrapSlots reference keygen = slots)
  /-- No call follows the end of a map. -/
  defined : ∀ call : Call Args, allowed call session →
    call.outcome reference session.state ≠ .undefined

end Calls
end Fideslib.Api.BootstrapSetup
