/-
This file settles when a registered context may stand for a fresh one.
-/

import Fideslib.Registry.State

namespace Fideslib.Registry

namespace Parameters

/-- These are the fields that the order never reads. -/
structure Uncompared where
  ModReduceFactor : List Double
  ScalingFactorReal : List Double
  ScalingFactorRealBig : List Double
  raw : Option RawParams
  batch : Int
  primes : List (Option LimbType × Int)
  Sprimes : List (Option LimbType × Int)
deriving DecidableEq

def uncompared (param : Parameters) : Uncompared where
  ModReduceFactor := param.ModReduceFactor
  ScalingFactorReal := param.ScalingFactorReal
  ScalingFactorRealBig := param.ScalingFactorRealBig
  raw := param.raw
  batch := param.batch
  primes := param.primes.map fun prime => (prime.type, prime.bits)
  Sprimes := param.Sprimes.map fun prime => (prime.type, prime.bits)

/-- Two lists of primes agree when their moduli and their other fields agree. -/
theorem primes_ext {first second : List PrimeRecord}
    (moduli : first.map PrimeRecord.p = second.map PrimeRecord.p)
    (others : first.map (fun prime => (prime.type, prime.bits)) =
      second.map fun prime => (prime.type, prime.bits)) : first = second := by
  induction first generalizing second with
  | nil => exact (List.map_eq_nil_iff.mp moduli.symm).symm
  | cons prime rest ih =>
      cases second with
      | nil => cases moduli
      | cons other tail =>
          simp only [List.map_cons, List.cons.injEq, Prod.mk.injEq] at moduli others
          obtain ⟨p, moduli⟩ := moduli
          obtain ⟨⟨type, bits⟩, others⟩ := others
          have head : prime = other := by
            cases prime
            cases other
            simp_all
          rw [head, ih moduli others]

/-- The compared and the uncompared fields determine the parameters. -/
theorem eq_iff (a b : Parameters) :
    a = b ↔ a.same b = true ∧ a.uncompared = b.uncompared := by
  constructor
  · rintro rfl
    exact ⟨same_self a, rfl⟩
  · rintro ⟨equal, others⟩
    have compared := (same_iff a b).mp equal
    simp only [identity, Identity.mk.injEq] at compared
    simp only [uncompared, Uncompared.mk.injEq] at others
    obtain ⟨logN, L, dnum, K, technique, moduli, special, _⟩ := compared
    obtain ⟨reduceFactors, factors, bigFactors, raw, batch, primes, Sprimes⟩ := others
    have primesEqual := primes_ext moduli primes
    have specialEqual := primes_ext special Sprimes
    cases a
    cases b
    simp_all

end Parameters

namespace State

theorem setCurrentContext_cases (held : List Context) (context : Context) (state : State) :
    ∃ moved, moved = { state with currentContext := some context } ∧
      (state.setCurrentContext held context = moved ∨
        ∃ old, state.currentContext = some old ∧ moved.alive held old = false ∧
          state.setCurrentContext held context = moved.destruct old) := by
  refine ⟨_, rfl, ?_⟩
  unfold setCurrentContext
  split
  case isTrue same =>
    left
    cases state
    simp_all
  case isFalse =>
    dsimp only
    split
    case h_1 => exact Or.inl rfl
    case h_2 old current =>
      rcases release_cases held { state with currentContext := some context } old with
        ⟨_, kept⟩ | ⟨dead, dropped⟩
      · exact Or.inl kept
      · exact Or.inr ⟨old, current, dead, dropped⟩

/-- A switch of the current context keeps the registry, the owners and the links. -/
theorem setCurrentContext_fields (held : List Context) (context : Context) (state : State) :
    (state.setCurrentContext held context).mapParamContext = state.mapParamContext ∧
    (state.setCurrentContext held context).owners = state.owners ∧
    (state.setCurrentContext held context).sparseContext = state.sparseContext ∧
    (state.setCurrentContext held context).currentContext = some context := by
  obtain ⟨moved, rfl, same | ⟨old, _, _, same⟩⟩ := setCurrentContext_cases held context state
  · rw [same]
    exact ⟨rfl, rfl, rfl, rfl⟩
  · rw [same]
    exact ⟨rfl, rfl, rfl, rfl⟩

/-- A registered or owned context stays in reach when another becomes current. -/
def CurrentHeld (state : State) : Prop :=
  ∀ context, state.currentContext = some context →
    context ∈ state.mapParamContext ∨ ∃ owner, state.owners.lookup owner = some context

/-- A held current context is not destroyed by a switch, so every key stays. -/
theorem setCurrentContext_keys {state : State} (held : state.CurrentHeld) (context : Context)
    (a b : Parameters) (tag : KeyHash) :
    (state.setCurrentContext [] context).getSecretSwitchingKey a b tag =
      state.getSecretSwitchingKey a b tag := by
  obtain ⟨moved, rfl, same | ⟨old, current, dead, _⟩⟩ := setCurrentContext_cases [] context state
  · rw [same]
    rfl
  · have living : State.alive { state with currentContext := some context } [] old = true := by
      rw [alive_iff]
      rcases held old current with registered | owned
      · exact Or.inl registered
      · exact Or.inr (Or.inr (Or.inl owned))
    rw [living] at dead
    cases dead

/-- A generated context is new, or it is the registered one and its duplicate is destroyed. -/
theorem genCryptoContextGPU_cases {param : Parameters} {devs : List Int} {state after : State}
    {context : Context} (ran : state.genCryptoContextGPU param devs = .ok (context, after)) :
    devs.length ≤ MAXG ∧ ∃ normal, normalize state.asserts param devs = .ok normal ∧
      ((state.find normal = none ∧ context = ⟨state.nextUid, normal, devs⟩ ∧
          after = State.setCurrentContext [] context { state with
            nextUid := state.nextUid + 1
            mapParamContext := state.mapParamContext ++ [context]
            sparseContext := Function.update state.sparseContext context ∅ }) ∨
        (state.find normal = some context ∧
          after = (State.setCurrentContext [] context
            { state with nextUid := state.nextUid + 1 }).destruct
              ⟨state.nextUid, normal, devs⟩)) := by
  unfold genCryptoContextGPU at ran
  split at ran
  case isTrue => cases ran
  case isFalse small =>
    refine ⟨Nat.le_of_not_gt small, ?_⟩
    split at ran
    case h_1 => cases ran
    case h_2 normal built =>
      refine ⟨normal, built, ?_⟩
      dsimp only at ran
      split at ran
      case h_1 absent =>
        cases ran
        exact Or.inl ⟨absent, rfl, rfl⟩
      case h_2 registered found =>
        cases ran
        exact Or.inr ⟨found, rfl⟩

/-- A generated context is registered, and the earlier entries and the owners stay. -/
theorem genCryptoContextGPU_registered {param : Parameters} {devs : List Int}
    {state after : State} {context : Context}
    (ran : state.genCryptoContextGPU param devs = .ok (context, after)) :
    context ∈ after.mapParamContext ∧ after.currentContext = some context ∧
      after.owners = state.owners := by
  obtain ⟨_, normal, _, ⟨_, _, rfl⟩ | ⟨found, rfl⟩⟩ := genCryptoContextGPU_cases ran
  · obtain ⟨contexts, owners, _, current⟩ := setCurrentContext_fields [] context { state with
      nextUid := state.nextUid + 1
      mapParamContext := state.mapParamContext ++ [context]
      sparseContext := Function.update state.sparseContext context ∅ }
    exact ⟨contexts ▸ List.mem_append_right _ (List.mem_singleton_self context), current, owners⟩
  · obtain ⟨contexts, owners, _, current⟩ := setCurrentContext_fields [] context
      { state with nextUid := state.nextUid + 1 }
    refine ⟨?_, current, owners⟩
    change context ∈ (State.setCurrentContext [] context
      { state with nextUid := state.nextUid + 1 }).mapParamContext
    rw [contexts]
    exact (find_some found).1

/-- A destroyed owner holds no current context back. -/
theorem destroyOwner_currentHeld {fuel owner : Nat} {state after : State} (held : state.CurrentHeld)
    (ran : state.destroyOwner fuel owner = some after) : after.CurrentHeld := by
  unfold destroyOwner at ran
  split at ran
  case h_1 =>
    cases ran
    exact held
  case h_2 retiring owned =>
    obtain ⟨retired, deregistered, rfl⟩ := Option.map_eq_some_iff.mp ran
    obtain ⟨shrinks, _, others⟩ := deregister_shrinks deregistered
    have dropped := release_shrinks [] { retired with owners := retired.owners.erase owner } retiring
    have contexts : (State.release [] { retired with owners := retired.owners.erase owner }
        retiring).mapParamContext = retired.mapParamContext := by
      rcases release_cases [] { retired with owners := retired.owners.erase owner } retiring with
        ⟨_, same⟩ | ⟨_, same⟩ <;> rw [same]
      rfl
    intro context current
    rw [contexts, dropped.owners]
    have stays := (dropped.current context current).1
    obtain ⟨before, kept⟩ := shrinks.current context stays
    rcases held context before with registered | ⟨other, stored⟩
    · exact Or.inl (kept registered)
    · right
      refine ⟨other, ?_⟩
      have different : other ≠ owner := by
        rintro rfl
        rw [owned] at stored
        cases stored
        have apart := others retiring stays
        rw [Parameters.same_self] at apart
        cases apart
      change (retired.owners.erase owner).lookup other = some context
      rw [AList.lookup_erase_ne different, shrinks.owners, stored]

/-- Every reachable registry holds its current context. -/
theorem step_currentHeld {call : Call} {state after : State} (held : state.CurrentHeld)
    (moved : call.Step state after) : after.CurrentHeld := by
  obtain ⟨fuel, ran⟩ := moved
  cases call with
  | loadContext owner param devs =>
      cases ran
      unfold loadContext
      split
      case h_1 => exact held
      case h_2 =>
        split
        case h_1 => exact held
        case h_2 context next generated =>
          obtain ⟨registered, current, _⟩ := genCryptoContextGPU_registered generated
          intro other equal
          cases current.symm.trans equal
          exact Or.inl registered
  | addBootstrapKeys owner slots sparse tag =>
      cases ran
      unfold addBootstrapKeys
      split
      case h_1 => exact held
      case h_2 =>
        split
        case h_1 => exact held
        case h_2 auxiliary next generated =>
          obtain ⟨registered, current, _⟩ := genCryptoContextGPU_registered generated
          intro other equal
          cases current.symm.trans equal
          exact Or.inl registered
  | useContext owner slots =>
      cases ran
      unfold useContext
      split
      case h_1 => exact held
      case h_2 context owned =>
        split
        case h_1 =>
          obtain ⟨_, owners, _, current⟩ := setCurrentContext_fields [] context state
          intro other equal
          cases current.symm.trans equal
          exact Or.inr ⟨owner, owners ▸ owned⟩
        case h_2 =>
          split
          case h_1 => exact held
          case h_2 auxiliary _ =>
            split
            case isFalse => exact held
            case isTrue living =>
              obtain ⟨contexts, owners, _, current⟩ := setCurrentContext_fields [] auxiliary state
              intro other equal
              cases current.symm.trans equal
              rw [contexts, owners]
              rcases (alive_iff state [] auxiliary).mp living with registered | same | owned | none
              · exact Or.inl registered
              · exact held auxiliary same
              · exact Or.inr owned
              · cases none
  | clearBootPrecomputation owner slots =>
      cases ran
      unfold clearBootPrecomputation
      split <;> exact held
  | clearParamSwitchKeys owner tag =>
      cases ran
      unfold clearParamSwitchKeys
      split <;> exact held
  | destroyOwner owner => exact destroyOwner_currentHeld held ran

theorem reachable_currentHeld {state : State} (reached : Reachable state) : state.CurrentHeld :=
  reached.choose_spec.invariant CurrentHeld (fun _ impossible => by cases impossible)
    fun _ _ _ _ moved held => step_currentHeld held moved

/-- A found context equals a fresh build, and the search changes no registry and no key. -/
structure SharingContract (state : State) (param : Parameters) (devs : List Int) : Prop where
  equal : ∀ normal context after, normalize state.asserts param devs = .ok normal →
    (state.find normal).isSome → state.genCryptoContextGPU param devs = .ok (context, after) →
      context.param = normal ∧ context.GPUid = devs
  unchanged : ∀ normal context after, normalize state.asserts param devs = .ok normal →
    (state.find normal).isSome → state.genCryptoContextGPU param devs = .ok (context, after) →
      after.mapParamContext = state.mapParamContext ∧
        ∀ a b tag, after.getSecretSwitchingKey a b tag = state.getSecretSwitchingKey a b tag

/-- The found context agrees on every uncompared field, and no key touches the parameters. -/
def SharesSafely (state : State) (param : Parameters) (devs : List Int) : Prop :=
  ∀ normal registered, devs.length ≤ MAXG → normalize state.asserts param devs = .ok normal →
    state.find normal = some registered →
      (registered.GPUid = devs ∧ registered.param.uncompared = normal.uncompared) ∧
        ∀ a b tag, a.same normal = true ∨ b.same normal = true →
          state.getSecretSwitchingKey a b tag = none

/-- A found context is returned. -/
theorem genCryptoContextGPU_found {state : State} {param normal : Parameters} {devs : List Int}
    {registered : Context} (small : devs.length ≤ MAXG) (built : normalize state.asserts param devs = .ok normal)
    (found : state.find normal = some registered) :
    state.genCryptoContextGPU param devs = .ok (registered,
      (State.setCurrentContext [] registered { state with nextUid := state.nextUid + 1 }).destruct
        ⟨state.nextUid, normal, devs⟩) := by
  unfold genCryptoContextGPU
  rw [if_neg (Nat.not_lt.mpr small), built]
  dsimp only
  rw [found]

/-- The keys after a found context are the keys that do not touch the parameters. -/
theorem genCryptoContextGPU_keys {state : State} (held : state.CurrentHeld) (normal : Parameters)
    (devs : List Int) (registered : Context) (a b : Parameters) (tag : KeyHash) :
    ((State.setCurrentContext [] registered { state with nextUid := state.nextUid + 1 }).destruct
        ⟨state.nextUid, normal, devs⟩).getSecretSwitchingKey a b tag =
      if a.same normal || b.same normal then none else state.getSecretSwitchingKey a b tag := by
  have numbered : State.CurrentHeld { state with nextUid := state.nextUid + 1 } := held
  rw [getSecretSwitchingKey_destruct, setCurrentContext_keys numbered]
  rfl

end State

/-- Sharing is sound exactly when the uncompared fields agree and no key touches the parameters,
and the order of the parameters is a strict weak order. -/
theorem sharing_contract_iff (state : State) (reached : Reachable state) :
    (∀ param devs, state.SharingContract param devs ↔ state.SharesSafely param devs) ∧
      IsStrictWeakOrder Parameters fun a b => a.less b = true := by
  have held := State.reachable_currentHeld reached
  refine ⟨fun param devs => ⟨?_, ?_⟩, Parameters.less_strictWeak⟩
  · intro contract normal registered small built found
    have ran := State.genCryptoContextGPU_found small built found
    have present : (state.find normal).isSome := by rw [found]; rfl
    obtain ⟨sameParam, sameDevices⟩ := contract.equal _ _ _ built present ran
    refine ⟨⟨sameDevices, by rw [sameParam]⟩, ?_⟩
    intro a b tag touches
    have kept := (contract.unchanged _ _ _ built present ran).2 a b tag
    rw [State.genCryptoContextGPU_keys held, if_pos (by simpa using touches)] at kept
    exact kept.symm
  · intro safe
    have settled (normal : Parameters) (context : Context) (after : State)
        (built : normalize state.asserts param devs = .ok normal) (present : (state.find normal).isSome)
        (ran : state.genCryptoContextGPU param devs = .ok (context, after)) :
        state.find normal = some context ∧ devs.length ≤ MAXG ∧
          after = (State.setCurrentContext [] context
            { state with nextUid := state.nextUid + 1 }).destruct
              ⟨state.nextUid, normal, devs⟩ := by
      obtain ⟨small, other, again, ⟨absent, _⟩ | ⟨found, shape⟩⟩ :=
        State.genCryptoContextGPU_cases ran
      · cases built.symm.trans again
        rw [absent] at present
        cases present
      · cases built.symm.trans again
        exact ⟨found, small, shape⟩
    constructor
    · intro normal context after built present ran
      obtain ⟨found, small, _⟩ := settled normal context after built present ran
      obtain ⟨⟨devices, fields⟩, _⟩ := safe normal context small built found
      exact ⟨(Parameters.eq_iff _ _).mpr ⟨(State.find_some found).2, fields⟩, devices⟩
    · intro normal context after built present ran
      obtain ⟨found, small, rfl⟩ := settled normal context after built present ran
      obtain ⟨_, free⟩ := safe normal context small built found
      refine ⟨(State.setCurrentContext_fields [] context _).1, ?_⟩
      intro a b tag
      rw [State.genCryptoContextGPU_keys held]
      split
      case isTrue touches => exact (free a b tag (by simpa using touches)).symm
      case isFalse => rfl

/-- These parameters describe a ring with one prime and one special prime. -/
def smallParameters : Parameters where
  logN := 3
  L := 0
  dnum := 1
  primes := [{ p := 17 }]
  Sprimes := [{ p := 97 }]
  ScalingFactorReal := [1]
  scalingTechnique := .FIXEDMANUAL

/-- These parameters differ from the small ones only in their scaling factors. -/
def rescaledParameters : Parameters := { smallParameters with ScalingFactorReal := [2] }

/-- One owner has loaded the small parameters. -/
def loadedState : State := State.loadContext 0 smallParameters [0] {}

theorem loadedState_reachable : Reachable loadedState :=
  ⟨false, StateMachine.Run.start.next trivial
    (show Call.Step (.loadContext 0 smallParameters [0]) {} loadedState from ⟨0, rfl⟩)⟩

/-- A repeated load of the same parameters shares safely while no switching key exists. -/
theorem sharing_contract_iff_loadedState : loadedState.SharingContract smallParameters [0] := by
  refine ((sharing_contract_iff loadedState loadedState_reachable).1 _ _).mpr ?_
  intro normal registered _ built found
  cases (show normalize false smallParameters [0] = .ok _ from rfl).symm.trans built
  cases (show loadedState.find _ = some _ from rfl).symm.trans found
  exact ⟨⟨rfl, rfl⟩, fun _ _ _ _ => rfl⟩

/-- A context with other scaling factors is returned as if it were the requested one. -/
theorem shared_scaling_factors_differ :
    ¬((∀ state, Reachable state → ∀ param devs, state.SharingContract param devs) ∧
      IsStrictWeakOrder Parameters fun a b => a.less b = true) := by
  rintro ⟨all, _⟩
  have contract := all loadedState loadedState_reachable rescaledParameters [0]
  have equal := contract.equal _ _ _ rfl rfl rfl
  exact absurd (congrArg Parameters.ScalingFactorReal equal.1) (by decide)

end Fideslib.Registry
