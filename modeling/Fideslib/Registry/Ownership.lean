/-
This file settles what the destruction of one owner leaves to the others over whole runs.
-/

import Fideslib.Registry.Retirement

namespace Fideslib.Registry
namespace State

variable {state after : State}

/-- A survivor keeps its entry, its auxiliaries and its switching keys. -/
structure Usable (before after : State) (survivor : Context) : Prop where
  registered : after.find survivor.param = some survivor
  auxiliaries : ∀ auxiliary ∈ before.auxiliaries survivor, auxiliary ∈ before.mapParamContext →
    auxiliary ∈ after.mapParamContext
  keys : ∀ auxiliary ∈ before.auxiliaries survivor, auxiliary ∈ before.mapParamContext → ∀ tag,
    after.getSecretSwitchingKey survivor.param auxiliary.param tag =
        before.getSecretSwitchingKey survivor.param auxiliary.param tag ∧
      after.getSecretSwitchingKey auxiliary.param survivor.param tag =
        before.getSecretSwitchingKey auxiliary.param survivor.param tag

/-- The destruction returns, keeps every survivor usable and leaves nothing of a last owner. -/
structure DestroyContract (state : State) (owner : Nat) (context : Context) : Prop where
  returns : ∃ fuel after, state.destroyOwner fuel owner = some after
  usable : ∀ fuel after, state.destroyOwner fuel owner = some after →
    ∀ other survivor, other ≠ owner → state.owners.lookup other = some survivor →
      Usable state after survivor
  cleaned : ∀ fuel after, state.destroyOwner fuel owner = some after →
    (∀ other, other ≠ owner → state.owners.lookup other ≠ some context) →
      ∀ retired, Retires state context retired →
        (∀ other, other ≠ owner → state.owners.lookup other ≠ some retired) →
          after.find retired.param = none ∧ ∀ param tag,
            after.getSecretSwitchingKey retired.param param tag = none ∧
              after.getSecretSwitchingKey param retired.param tag = none

/-- No other owner holds a retiring context, and none uses the destroyed one as an auxiliary. -/
def NoneShares (state : State) (owner : Nat) (context : Context) : Prop :=
  ∀ other survivor, other ≠ owner → state.owners.lookup other = some survivor →
    ¬Retires state context survivor ∧ context ∉ state.auxiliaries survivor

/-- This is everything that a destroyed owner leaves behind. -/
structure Destroyed (state : State) (owner : Nat) (context : Context) (after : State) : Prop where
  members : ∀ entry, entry ∈ after.mapParamContext ↔
    entry ∈ state.mapParamContext ∧ ¬Retires state context entry
  distinct : after.Distinct
  owners : after.owners = state.owners.erase owner
  current : ∀ entry, after.currentContext = some entry → entry ∈ after.mapParamContext
  spares : ∀ a b tag, (after.find a).isSome → (after.find b).isSome →
    after.getSecretSwitchingKey a b tag = state.getSecretSwitchingKey a b tag
  clears : ∀ entry, Retires state context entry → ∀ other tag,
    after.getSecretSwitchingKey entry.param other tag = none ∧
      after.getSecretSwitchingKey other entry.param tag = none

/-- In a well-formed registry every living context is registered. -/
theorem Wf.settled (wf : state.Wf) {context : Context} (registered : context ∈ state.mapParamContext) :
    state.Settled [context] := by
  intro entry living
  rcases (alive_iff _ _ _).mp living with here | current | ⟨other, stored⟩ | held
  · exact Or.inl here
  · exact Or.inl (wf.currentRegistered entry current)
  · exact Or.inl (wf.ownersRegistered other entry stored)
  · exact Or.inl (List.mem_singleton.mp held ▸ registered)

/-- A retirement in a well-formed registry erases exactly what retires with the context. -/
theorem deregister_members {fuel : Nat} {context : Context} (wf : state.Wf)
    (registered : context ∈ state.mapParamContext)
    (ran : deregisterCryptoContextGPU fuel [context] context.param state = some after) :
    Closes state after ∧ after.find context.param = none ∧ ∀ entry, entry ∈ after.mapParamContext ↔
      entry ∈ state.mapParamContext ∧ ¬Retires state context entry := by
  obtain ⟨_, gone, _⟩ := deregister_shrinks ran
  obtain ⟨closes, sound⟩ := deregister_closes wf.distinct (wf.settled registered) ran
  have onlyRetiring := sound state context (Shrinks.refl state)
    (fun entry member erased => absurd member erased) (by
      intro entry found
      cases (wf.distinct.find_of_mem registered).symm.trans found
      exact .root)
  have erased : context ∉ after.mapParamContext := by
    intro stays
    have apart := (find_none_iff after context.param).mp gone context stays
    rw [Parameters.same_self] at apart
    cases apart
  refine ⟨closes, gone, fun entry => ⟨fun stays => ?_, ?_⟩⟩
  · exact ⟨closes.contexts.subset stays, fun retires =>
      (closes.erases registered erased retires).2 stays⟩
  · rintro ⟨member, survives⟩
    by_contra lost
    exact survives (onlyRetiring entry member lost)

/-- A destroyed owner erases what retires with its context and keeps everything else. -/
theorem destroyOwner_destroyed {fuel owner : Nat} {context : Context} (wf : state.Wf)
    (owned : state.owners.lookup owner = some context)
    (ran : state.destroyOwner fuel owner = some after) : Destroyed state owner context after := by
  have registered := wf.ownersRegistered owner context owned
  unfold destroyOwner at ran
  rw [owned] at ran
  obtain ⟨retired, deregistered, rfl⟩ := Option.map_eq_some_iff.mp ran
  obtain ⟨closes, gone, members⟩ := deregister_members wf registered deregistered
  generalize droppedEq : { retired with owners := retired.owners.erase owner } = dropped
  have contexts : dropped.mapParamContext = retired.mapParamContext := by rw [← droppedEq]
  have keys (a b : Parameters) (tag : KeyHash) : dropped.getSecretSwitchingKey a b tag =
      retired.getSecretSwitchingKey a b tag := by rw [← droppedEq]; rfl
  have finds (a : Parameters) : dropped.find a = retired.find a := by rw [← droppedEq]; rfl
  have released : Closes dropped (dropped.release [] context) :=
    release_closes (Or.inr ((finds _).trans gone))
  have final : (dropped.release [] context).mapParamContext = retired.mapParamContext :=
    (release_contexts [] dropped context).trans contexts
  have finalFind (a : Parameters) : (dropped.release [] context).find a = retired.find a := by
    rw [find, find, final]
  constructor
  · intro entry
    rw [final]
    exact members entry
  · rw [Distinct, final]
    exact wf.distinct.shrink closes.toShrinks
  · rw [released.owners, ← droppedEq, ← closes.owners]
  · intro entry current
    have before := (released.current entry current).1
    rw [← droppedEq] at before
    obtain ⟨start, stays⟩ := closes.current entry before
    rw [final]
    exact stays (wf.currentRegistered entry start)
  · intro a b tag presentA presentB
    rw [released.spares a b tag presentA presentB, keys]
    rw [finalFind] at presentA presentB
    exact closes.spares a b tag presentA presentB
  · intro entry retires other tag
    have erased : context ∉ retired.mapParamContext := fun stays =>
      ((members context).mp stays).2 .root
    obtain ⟨member, lost⟩ := closes.erases registered erased retires
    obtain ⟨left, right⟩ := closes.clears entry member lost other tag
    exact ⟨released.keys _ _ _ ((keys _ _ _).trans left),
      released.keys _ _ _ ((keys _ _ _).trans right)⟩

theorem destroyOwner_returns {owner : Nat} (state : State) :
    ∃ fuel after, state.destroyOwner fuel owner = some after := by
  unfold destroyOwner
  cases state.owners.lookup owner with
  | none => exact ⟨0, state, rfl⟩
  | some context =>
      obtain ⟨retired, ran⟩ := deregister_returns [context] context.param
        (Nat.lt_succ_self state.mapParamContext.length)
      refine ⟨state.mapParamContext.length + 1, ?_⟩
      dsimp only
      rw [ran]
      exact ⟨_, rfl⟩

/-- In a well-formed registry the destruction keeps its promise exactly when nothing is shared. -/
theorem destroyContract_iff {owner : Nat} {context : Context} (wf : state.Wf)
    (owned : state.owners.lookup owner = some context) :
    DestroyContract state owner context ↔ NoneShares state owner context := by
  have registered := wf.ownersRegistered owner context owned
  constructor
  · intro contract other survivor different stored
    obtain ⟨fuel, after, ran⟩ := contract.returns
    have destroyed := destroyOwner_destroyed wf owned ran
    have usable := contract.usable fuel after ran other survivor different stored
    constructor
    · intro retires
      exact ((destroyed.members survivor).mp (find_some usable.registered).1).2 retires
    · intro uses
      exact ((destroyed.members context).mp (usable.auxiliaries context uses registered)).2 .root
  · intro free
    refine ⟨destroyOwner_returns state, ?_, ?_⟩
    · intro fuel after ran other survivor different stored
      have destroyed := destroyOwner_destroyed wf owned ran
      obtain ⟨survives, apart⟩ := free other survivor different stored
      have stays : survivor ∈ after.mapParamContext := (destroyed.members survivor).mpr
        ⟨wf.ownersRegistered other survivor stored, survives⟩
      have auxiliaries (auxiliary : Context) (uses : auxiliary ∈ state.auxiliaries survivor)
          (member : auxiliary ∈ state.mapParamContext) : auxiliary ∈ after.mapParamContext := by
        refine (destroyed.members auxiliary).mpr ⟨member, fun retires => ?_⟩
        cases retires with
        | root => exact apart uses
        | auxiliary _ _ _ _ only =>
            exact survives (only survivor (wf.ownersRegistered other survivor stored) uses)
      have found := destroyed.distinct.find_of_mem stays
      refine ⟨found, auxiliaries, ?_⟩
      intro auxiliary uses member tag
      have present : (after.find auxiliary.param).isSome := by
        rw [destroyed.distinct.find_of_mem (auxiliaries auxiliary uses member)]
        rfl
      have own : (after.find survivor.param).isSome := by
        rw [found]
        rfl
      exact ⟨destroyed.spares _ _ tag own present, destroyed.spares _ _ tag present own⟩
    · intro fuel after ran _ retired retires _
      have destroyed := destroyOwner_destroyed wf owned ran
      refine ⟨?_, destroyed.clears retired retires⟩
      rw [find_none_iff]
      intro entry stays
      by_contra same
      rw [Bool.not_eq_false] at same
      obtain ⟨member, survives⟩ := (destroyed.members entry).mp stays
      have known : retired ∈ state.mapParamContext := by
        cases retires with
        | root => exact registered
        | auxiliary _ _ _ here _ => exact here
      exact survives (wf.distinct.eq_of_same member known same ▸ retires)

/-- A registered context may become current. -/
theorem Wf.setCurrentContext (wf : state.Wf) {context : Context}
    (registered : context ∈ state.mapParamContext) : (state.setCurrentContext [] context).Wf := by
  obtain ⟨contexts, owners, _, current⟩ := setCurrentContext_fields [] context state
  refine ⟨?_, ?_, ?_⟩
  · rw [Distinct, contexts]
    exact wf.distinct
  · intro other equal
    cases current.symm.trans equal
    rw [contexts]
    exact registered
  · rw [contexts, owners]
    exact wf.ownersRegistered

/-- A generated context keeps the registry well formed. -/
theorem Wf.genCryptoContextGPU (wf : state.Wf) {param : Parameters} {devs : List Int}
    {context : Context} (ran : state.genCryptoContextGPU param devs = .ok (context, after)) :
    after.Wf := by
  obtain ⟨_, normal, _, ⟨absent, shape, rfl⟩ | ⟨found, rfl⟩⟩ := genCryptoContextGPU_cases ran
  · obtain ⟨contexts, owners, _, current⟩ := setCurrentContext_fields [] context { state with
      nextUid := state.nextUid + 1
      mapParamContext := state.mapParamContext ++ [context]
      sparseContext := Function.update state.sparseContext context ∅ }
    refine ⟨?_, ?_, ?_⟩
    · rw [Distinct, contexts]
      refine List.pairwise_append.mpr ⟨wf.distinct, List.pairwise_singleton _ _, ?_⟩
      intro entry member other last
      rw [List.mem_singleton.mp last, shape]
      exact (find_none_iff state normal).mp absent entry member
    · intro other equal
      cases current.symm.trans equal
      rw [contexts]
      exact List.mem_append_right _ (List.mem_singleton_self _)
    · rw [contexts, owners]
      intro owner entry stored
      exact List.mem_append_left _ (wf.ownersRegistered owner entry stored)
  · have numbered : State.Wf { state with nextUid := state.nextUid + 1 } :=
      ⟨wf.distinct, wf.currentRegistered, wf.ownersRegistered⟩
    have moved := numbered.setCurrentContext (find_some found).1
    exact ⟨moved.distinct, moved.currentRegistered, moved.ownersRegistered⟩

/-- A destroyed owner that shares nothing keeps the registry well formed. -/
theorem Wf.destroyOwner (wf : state.Wf) {fuel owner : Nat}
    (free : ∀ context, state.owners.lookup owner = some context → NoneShares state owner context)
    (ran : state.destroyOwner fuel owner = some after) : after.Wf := by
  cases owned : state.owners.lookup owner with
  | none =>
      unfold State.destroyOwner at ran
      rw [owned] at ran
      cases ran
      exact wf
  | some context =>
      have destroyed := destroyOwner_destroyed wf owned ran
      refine ⟨destroyed.distinct, destroyed.current, ?_⟩
      intro other survivor stored
      rw [destroyed.owners] at stored
      have different : other ≠ owner := by
        rintro rfl
        rw [AList.lookup_erase] at stored
        cases stored
      rw [AList.lookup_erase_ne different] at stored
      exact (destroyed.members survivor).mpr ⟨wf.ownersRegistered other survivor stored,
        (free context owned other survivor different stored).1⟩

end State

/-- Every destroyed owner of the run shares nothing with another owner. -/
def DestroysUnshared (call : Call) (state : State) : Prop :=
  match call with
  | .destroyOwner owner =>
      ∀ context, state.owners.lookup owner = some context → state.NoneShares owner context
  | _ => True

/-- Every guarded step keeps the registry well formed. -/
theorem step_wf {call : Call} {state after : State} (meets : DestroysUnshared call state)
    (moved : call.Step state after) (wf : state.Wf) : after.Wf := by
  obtain ⟨fuel, ran⟩ := moved
  cases call with
  | loadContext owner param devs =>
      cases ran
      unfold State.loadContext
      split
      case h_1 => exact wf
      case h_2 =>
        split
        case h_1 => exact wf
        case h_2 context next generated =>
          have nextWf := wf.genCryptoContextGPU generated
          refine ⟨nextWf.distinct, nextWf.currentRegistered, ?_⟩
          intro other entry stored
          by_cases same : other = owner
          · subst same
            rw [AList.lookup_insert] at stored
            cases stored
            exact (State.genCryptoContextGPU_registered generated).1
          · rw [AList.lookup_insert_ne same] at stored
            exact nextWf.ownersRegistered other entry stored
  | addBootstrapKeys owner slots sparse tag =>
      cases ran
      unfold State.addBootstrapKeys
      split
      case h_1 => exact wf
      case h_2 =>
        split
        case h_1 => exact wf
        case h_2 auxiliary next generated =>
          have nextWf := wf.genCryptoContextGPU generated
          exact ⟨nextWf.distinct, nextWf.currentRegistered, nextWf.ownersRegistered⟩
  | useContext owner slots =>
      cases ran
      unfold State.useContext
      split
      case h_1 => exact wf
      case h_2 context owned =>
        split
        case h_1 => exact wf.setCurrentContext (wf.ownersRegistered owner context owned)
        case h_2 =>
          split
          case h_1 => exact wf
          case h_2 auxiliary _ =>
            split
            case isFalse => exact wf
            case isTrue living =>
              apply wf.setCurrentContext
              rcases (State.alive_iff state [] auxiliary).mp living with
                registered | current | ⟨other, stored⟩ | none
              · exact registered
              · exact wf.currentRegistered auxiliary current
              · exact wf.ownersRegistered other auxiliary stored
              · cases none
  | clearBootPrecomputation owner slots =>
      cases ran
      unfold State.clearBootPrecomputation
      split
      · exact wf
      · exact ⟨wf.distinct, wf.currentRegistered, wf.ownersRegistered⟩
  | clearParamSwitchKeys owner tag =>
      cases ran
      unfold State.clearParamSwitchKeys
      split
      · exact wf
      · exact ⟨wf.distinct, wf.currentRegistered, wf.ownersRegistered⟩
  | destroyOwner owner => exact wf.destroyOwner meets ran

theorem empty_wf (asserts : Bool) : State.Wf { asserts := asserts } where
  distinct := List.Pairwise.nil
  currentRegistered := by simp
  ownersRegistered := by simp

theorem run_wf {asserts : Bool} {state : State}
    (run : StateMachine.Run Call.Step DestroysUnshared { asserts := asserts } state) :
    state.Wf :=
  run.invariant State.Wf (empty_wf asserts) fun _ _ _ meets moved wf => step_wf meets moved wf

/-- In every run that destroys only unshared owners, the next destruction keeps its promise
exactly when its owner shares nothing either. -/
theorem destroy_contract_iff {asserts : Bool} (state : State)
    (run : StateMachine.Run Call.Step DestroysUnshared { asserts := asserts } state) (owner : Nat)
    (context : Context) (owned : state.owners.lookup owner = some context) :
    state.DestroyContract owner context ↔ state.NoneShares owner context :=
  State.destroyContract_iff (run_wf run) owned

/-- These parameters describe the auxiliary context of a bootstrap. -/
def sparseParameters : Parameters := { smallParameters with Sprimes := [{ p := 193 }] }

/-- The first owner has an auxiliary context, and its switching keys are stored. -/
def linkedState : State := loadedState.addBootstrapKeys 0 2 sparseParameters "key"

/-- A second owner has loaded a larger ring. -/
def pairedState : State := linkedState.loadContext 1 { smallParameters with logN := 4 } [0]

/-- One of two owners may be destroyed with its auxiliary, and the other one stays usable. -/
theorem destroy_contract_iff_pairedState :
    ∃ context, pairedState.owners.lookup 0 = some context ∧
      pairedState.DestroyContract 0 context := by
  have load : Call.Step (.loadContext 0 smallParameters [0]) {} loadedState := ⟨0, rfl⟩
  have link : Call.Step (.addBootstrapKeys 0 2 sparseParameters "key") loadedState linkedState :=
    ⟨0, rfl⟩
  have pair : Call.Step (.loadContext 1 { smallParameters with logN := 4 } [0]) linkedState
      pairedState := ⟨0, rfl⟩
  have run : StateMachine.Run Call.Step DestroysUnshared {} pairedState := by
    refine .next ?_ (by trivial) pair
    refine .next ?_ (by trivial) link
    exact .next .start (by trivial) load
  -- Only the auxiliary, the second context that was built, is linked.
  have linked (user entry : Context) (used : entry ∈ pairedState.auxiliaries user) :
      entry.uid = 1 := by
    have shape : ∃ (first auxiliary last : Context) (links : AList fun _ : Int => Context),
        pairedState.sparseContext = Function.update (Function.update (Function.update
          (Function.update (fun _ => ∅) first ∅) auxiliary ∅) first links) last ∅ ∧
        links.entries = [⟨2, auxiliary⟩] ∧ auxiliary.uid = 1 :=
      ⟨_, _, _, _, rfl, rfl, rfl⟩
    obtain ⟨first, auxiliary, last, links, shape, entries, uid⟩ := shape
    rw [State.auxiliaries, shape] at used
    simp only [Function.update_apply] at used
    split_ifs at used
    · cases used
    · rw [entries] at used
      exact List.mem_singleton.mp used ▸ uid
    · cases used
    · cases used
  refine ⟨_, rfl, ?_⟩
  refine (destroy_contract_iff pairedState run 0 _ rfl).mpr ?_
  intro other survivor different stored
  have listed : (⟨other, survivor⟩ : Sigma fun _ : Nat => Context) ∈ pairedState.owners.entries :=
    AList.mem_lookup_iff.mp stored
  have second : survivor.uid = 2 := by
    rcases List.mem_cons.mp listed with same | rest
    · cases same
      rfl
    · cases List.mem_singleton.mp rest
      exact absurd rfl different
  refine ⟨fun retires => ?_, fun used => absurd (linked survivor _ used) (by decide)⟩
  cases retires with
  | root => exact absurd second (by decide)
  | auxiliary _ uses =>
      rw [linked _ _ uses] at second
      cases second

/-- Two owners have loaded the same parameters. -/
def sharedState : State := loadedState.loadContext 1 smallParameters [0]

/-- The destruction of one of two owners takes the registry entry of the other. -/
theorem shared_context_retires :
    ¬∀ state, Reachable state → ∀ owner context, state.owners.lookup owner = some context →
      state.DestroyContract owner context := by
  intro all
  have shared : Call.Step (.loadContext 1 smallParameters [0]) loadedState sharedState := ⟨0, rfl⟩
  obtain ⟨asserts, run⟩ := loadedState_reachable
  have contract := all sharedState ⟨asserts, run.next trivial shared⟩ 0 _ rfl
  have usable := contract.usable 2 _ rfl 1 _ (by decide) rfl
  exact absurd usable.registered (by decide)

end Fideslib.Registry
