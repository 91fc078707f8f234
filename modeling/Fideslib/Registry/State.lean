/-
This file gives the lookup rules of the registry and what a retirement can remove.
-/

import Fideslib.Library.Loop
import Fideslib.Registry.Context

namespace Fideslib.Registry

namespace SwitchEntry

/-- An entry for a pair touches exactly the parameters equal to one of the pair. -/
theorem touches_of_links {entry : SwitchEntry} {a b : Parameters} (links : entry.links a b = true)
    (param : Parameters) : entry.touches param = (a.same param || b.same param) := by
  obtain ⟨first, second⟩ := Bool.and_eq_true_iff.mp links
  rw [touches, Parameters.same_congr first, Parameters.same_congr second]

@[simp] theorem clear_links (entry : SwitchEntry) (a b : Parameters) :
    entry.clear.links a b = entry.links a b := rfl

@[simp] theorem clear_lookup (entry : SwitchEntry) (tag : KeyHash) :
    entry.clear.keys.lookup tag = none := AList.lookup_empty tag

end SwitchEntry

namespace State

/-- A lookup with other entries changes only where the entries of its pair change. -/
theorem getSecretSwitchingKey_eq (state : State) (a b : Parameters) (tag : KeyHash) :
    state.getSecretSwitchingKey a b tag =
      state.mapParamSwitch.findSome? fun entry =>
        if entry.links a b then entry.keys.lookup tag else none := by
  unfold getSecretSwitchingKey
  induction state.mapParamSwitch with
  | nil => rfl
  | cons entry rest ih =>
      cases links : entry.links a b with
      | true => simp [links, List.findSome?_cons, ih]
      | false => simp [links, ih]

/-- A destroyed context takes every key that touches its parameters along. -/
theorem getSecretSwitchingKey_destruct (state : State) (context : Context) (a b : Parameters)
    (tag : KeyHash) : (state.destruct context).getSecretSwitchingKey a b tag =
      if a.same context.param || b.same context.param then none
      else state.getSecretSwitchingKey a b tag := by
  unfold getSecretSwitchingKey destruct
  rw [List.filter_filter]
  split
  case isTrue touched =>
    have none : state.mapParamSwitch.filter (fun entry =>
        entry.links a b && !entry.touches context.param) = [] := by
      apply List.filter_eq_nil_iff.mpr
      intro entry _ kept
      obtain ⟨links, free⟩ := Bool.and_eq_true_iff.mp kept
      rw [SwitchEntry.touches_of_links links, touched] at free
      cases free
    rw [none]
    rfl
  case isFalse untouched =>
    have same : state.mapParamSwitch.filter (fun entry =>
        entry.links a b && !entry.touches context.param) =
        state.mapParamSwitch.filter (·.links a b) := by
      apply List.filter_congr
      intro entry _
      cases links : entry.links a b with
      | false => rfl
      | true => simp [SwitchEntry.touches_of_links links, untouched]
    rw [same]

/-- A cleared registration takes every key that touches its parameters along. -/
theorem findSome_clear (entries : List SwitchEntry) (param a b : Parameters) (tag : KeyHash) :
    (entries.map fun entry => if entry.touches param then entry.clear else entry).findSome?
        (fun entry => if entry.links a b then entry.keys.lookup tag else none) =
      if a.same param || b.same param then none
      else entries.findSome? fun entry => if entry.links a b then entry.keys.lookup tag else none := by
  induction entries with
  | nil => simp
  | cons entry rest ih =>
      rw [List.map_cons, List.findSome?_cons, List.findSome?_cons, ih]
      cases links : entry.links a b with
      | false =>
          have cleared : (if entry.touches param then entry.clear else entry).links a b = false := by
            split <;> simp [links]
          simp [cleared]
      | true =>
          rw [SwitchEntry.touches_of_links links]
          cases a.same param || b.same param with
          | true => simp
          | false => simp [links]

theorem find_some {state : State} {param : Parameters} {context : Context}
    (found : state.find param = some context) :
    context ∈ state.mapParamContext ∧ context.param.same param = true := by
  unfold find at found
  exact ⟨List.mem_of_find?_eq_some found, by simpa using List.find?_some found⟩

theorem find_none_iff (state : State) (param : Parameters) :
    state.find param = none ↔ ∀ context ∈ state.mapParamContext, context.param.same param = false := by
  simp [find]

theorem alive_iff (state : State) (held : List Context) (context : Context) :
    state.alive held context = true ↔ context ∈ state.mapParamContext ∨
      state.currentContext = some context ∨ (∃ owner, state.owners.lookup owner = some context) ∨
        context ∈ held := by
  have owned : context ∈ state.owners.entries.map Sigma.snd ↔
      ∃ owner, state.owners.lookup owner = some context := by
    constructor
    · intro member
      obtain ⟨⟨owner, stored⟩, entry, rfl⟩ := List.mem_map.mp member
      exact ⟨owner, AList.mem_lookup_iff.mpr entry⟩
    · rintro ⟨owner, stored⟩
      exact List.mem_map.mpr ⟨⟨owner, context⟩, AList.mem_lookup_iff.mp stored, rfl⟩
  simp only [alive, Bool.or_eq_true, List.contains_iff_mem, beq_iff_eq, owned, or_assoc]

/-- A release changes at most the switching keys. -/
theorem release_cases (held : List Context) (state : State) (context : Context) :
    state.alive held context = true ∧ state.release held context = state ∨
      state.alive held context = false ∧ state.release held context = state.destruct context := by
  unfold release
  cases living : state.alive held context with
  | true => exact Or.inl ⟨rfl, if_pos rfl⟩
  | false => exact Or.inr ⟨rfl, if_neg (by simp)⟩

/-- A retirement only removes: it keeps the owners and the auxiliary links. -/
structure Shrinks (before after : State) : Prop where
  contexts : after.mapParamContext.Sublist before.mapParamContext
  owners : after.owners = before.owners
  sparse : after.sparseContext = before.sparseContext
  current : ∀ context, after.currentContext = some context →
    before.currentContext = some context ∧
      (context ∈ before.mapParamContext → context ∈ after.mapParamContext)
  keys : ∀ a b tag, before.getSecretSwitchingKey a b tag = none →
    after.getSecretSwitchingKey a b tag = none

theorem Shrinks.refl (state : State) : Shrinks state state where
  contexts := List.Sublist.refl _
  owners := rfl
  sparse := rfl
  current := fun _ current => ⟨current, fun member => member⟩
  keys := fun _ _ _ absent => absent

theorem Shrinks.trans {first second third : State} (early : Shrinks first second)
    (late : Shrinks second third) : Shrinks first third where
  contexts := late.contexts.trans early.contexts
  owners := late.owners.trans early.owners
  sparse := late.sparse.trans early.sparse
  current := fun context current => by
    obtain ⟨middle, stays⟩ := late.current context current
    obtain ⟨start, kept⟩ := early.current context middle
    exact ⟨start, fun member => stays (kept member)⟩
  keys := fun a b tag absent => late.keys a b tag (early.keys a b tag absent)

theorem Shrinks.auxiliaries {before after : State} (shrinks : Shrinks before after)
    (context : Context) : after.auxiliaries context = before.auxiliaries context := by
  rw [State.auxiliaries, State.auxiliaries, shrinks.sparse]

/-- An absent entry stays absent. -/
theorem Shrinks.find_none {before after : State} (shrinks : Shrinks before after)
    {param : Parameters} (absent : before.find param = none) : after.find param = none :=
  (find_none_iff after param).mpr fun context member =>
    (find_none_iff before param).mp absent context (shrinks.contexts.subset member)

/-- A living context lived before. -/
theorem Shrinks.alive {before after : State} (shrinks : Shrinks before after)
    {held : List Context} {context : Context} (living : after.alive held context = true) :
    before.alive held context = true := by
  rw [alive_iff] at living ⊢
  rcases living with registered | current | owned | local_
  · exact Or.inl (shrinks.contexts.subset registered)
  · exact Or.inr (Or.inl (shrinks.current context current).1)
  · exact Or.inr (Or.inr (Or.inl (shrinks.owners ▸ owned)))
  · exact Or.inr (Or.inr (Or.inr local_))

theorem destruct_shrinks (state : State) (context : Context) :
    Shrinks state (state.destruct context) where
  contexts := List.Sublist.refl _
  owners := rfl
  sparse := rfl
  current := fun _ current => ⟨current, fun member => member⟩
  keys := fun a b tag absent => by
    rw [getSecretSwitchingKey_destruct, absent, ite_self]

theorem release_shrinks (held : List Context) (state : State) (context : Context) :
    Shrinks state (state.release held context) := by
  rcases release_cases held state context with ⟨_, same⟩ | ⟨_, dead⟩
  · rw [same]
    exact Shrinks.refl state
  · rw [dead]
    exact destruct_shrinks state context

/-- Releases one after the other only remove switching keys. -/
theorem foldl_release_shrinks (held : List Context) (contexts : List Context) (state : State) :
    Shrinks state (contexts.foldl (release held) state) ∧
      (contexts.foldl (release held) state).mapParamContext = state.mapParamContext := by
  induction contexts generalizing state with
  | nil => exact ⟨Shrinks.refl state, rfl⟩
  | cons context rest ih =>
      obtain ⟨shrinks, same⟩ := ih (state.release held context)
      have first : (state.release held context).mapParamContext = state.mapParamContext := by
        rcases release_cases held state context with ⟨_, equal⟩ | ⟨_, equal⟩ <;> rw [equal]
        rfl
      exact ⟨(release_shrinks held state context).trans shrinks, same.trans first⟩

/-- The state between the erased entry and the dropped current pointer. -/
def erased (param : Parameters) (state : State) : State :=
  { state with
    mapParamSwitch := state.mapParamSwitch.map fun (entry : SwitchEntry) =>
      if entry.touches param then entry.clear else entry
    mapParamContext := state.mapParamContext.filter fun context => !context.param.same param }

/-- A cleared registration drops the current pointer when it has the same parameters. -/
theorem unregister_cases (held : List Context) (param : Parameters) (state : State) :
    (state.unregister held param = state.erased param ∧
      ∀ context, state.currentContext = some context → context.param.same param = false) ∨
    ∃ current, current.param.same param = true ∧ state.currentContext = some current ∧
      state.unregister held param =
        State.release held { state.erased param with currentContext := none } current := by
  cases current : state.currentContext with
  | none =>
      refine Or.inl ⟨?_, fun _ impossible => by cases impossible⟩
      simp only [unregister, erased, current]
  | some context =>
      cases same : context.param.same param with
      | false =>
          refine Or.inl ⟨?_, ?_⟩
          · simp [unregister, erased, current, same]
          · intro other equal
            cases equal
            exact same
      | true =>
          refine Or.inr ⟨context, same, rfl, ?_⟩
          simp [unregister, erased, current, same]

theorem getSecretSwitchingKey_erased (state : State) (param a b : Parameters) (tag : KeyHash) :
    (state.erased param).getSecretSwitchingKey a b tag =
      if a.same param || b.same param then none else state.getSecretSwitchingKey a b tag := by
  rw [getSecretSwitchingKey_eq, getSecretSwitchingKey_eq]
  exact findSome_clear state.mapParamSwitch param a b tag

/-- The keys of a cleared registration are gone, and the other keys stay. -/
theorem getSecretSwitchingKey_unregister (held : List Context) (param : Parameters) (state : State)
    (a b : Parameters) (tag : KeyHash) :
    (state.unregister held param).getSecretSwitchingKey a b tag =
      if a.same param || b.same param then none else state.getSecretSwitchingKey a b tag := by
  rcases unregister_cases held param state with ⟨same, _⟩ | ⟨current, equal, _, dropped⟩
  · rw [same, getSecretSwitchingKey_erased]
  · rw [dropped]
    rcases release_cases held { state.erased param with currentContext := none } current with
      ⟨_, kept⟩ | ⟨_, dead⟩
    · rw [kept]
      exact getSecretSwitchingKey_erased state param a b tag
    · rw [dead, getSecretSwitchingKey_destruct]
      have touched (c : Parameters) : c.same current.param = c.same param := by
        rw [Parameters.same_comm, Parameters.same_congr equal, Parameters.same_comm]
      rw [touched, touched]
      split
      case isTrue => rfl
      case isFalse untouched =>
        exact (getSecretSwitchingKey_erased state param a b tag).trans (if_neg untouched)

theorem unregister_contexts (held : List Context) (param : Parameters) (state : State) :
    (state.unregister held param).mapParamContext =
      state.mapParamContext.filter fun context => !context.param.same param := by
  rcases unregister_cases held param state with ⟨same, _⟩ | ⟨current, _, _, dropped⟩
  · rw [same]
    rfl
  · rw [dropped]
    rcases release_cases held { state.erased param with currentContext := none } current with
      ⟨_, kept⟩ | ⟨_, dead⟩
    · rw [kept]
      rfl
    · rw [dead]
      rfl

/-- The current pointer survives only with other parameters. -/
theorem unregister_current {held : List Context} {param : Parameters} {state : State}
    {context : Context} (current : (state.unregister held param).currentContext = some context) :
    state.currentContext = some context ∧ context.param.same param = false := by
  rcases unregister_cases held param state with ⟨same, others⟩ | ⟨old, _, _, dropped⟩
  · rw [same] at current
    exact ⟨current, others context current⟩
  · rw [dropped] at current
    have kept := ((release_shrinks held _ old).current context current).1
    cases kept

theorem unregister_shrinks (held : List Context) (param : Parameters) (state : State) :
    Shrinks state (state.unregister held param) := by
  have fields : (state.unregister held param).owners = state.owners ∧
      (state.unregister held param).sparseContext = state.sparseContext := by
    rcases unregister_cases held param state with ⟨same, _⟩ | ⟨current, _, _, dropped⟩
    · rw [same]
      exact ⟨rfl, rfl⟩
    · rw [dropped]
      have shrinks := release_shrinks held { state.erased param with currentContext := none } current
      exact ⟨shrinks.owners, shrinks.sparse⟩
  refine ⟨?_, fields.1, fields.2, ?_, ?_⟩
  · rw [unregister_contexts]
    exact List.filter_sublist
  · intro context current
    obtain ⟨before, other⟩ := unregister_current current
    refine ⟨before, fun member => ?_⟩
    rw [unregister_contexts]
    exact List.mem_filter.mpr ⟨member, by simp [other]⟩
  · intro a b tag absent
    rw [getSecretSwitchingKey_unregister, absent, ite_self]

/-- One frame of the recursion: it unregisters, visits its auxiliaries and releases them. -/
theorem deregister_frame {fuel : Nat} {held : List Context} {param : Parameters}
    {state after : State}
    (ran : deregisterCryptoContextGPU (fuel + 1) held param state = some after) :
    ∃ retired, (state.lockAuxiliaries held (state.find param)).foldlM (fun current auxiliary =>
        if current.shared auxiliary then some current
        else deregisterCryptoContextGPU fuel ((state.find param).toList ++
          state.lockAuxiliaries held (state.find param) ++ held) auxiliary.param current)
        (state.unregister ((state.find param).toList ++
          state.lockAuxiliaries held (state.find param) ++ held) param) = some retired ∧
      after = (state.lockAuxiliaries held (state.find param) ++ (state.find param).toList).foldl
        (release held) retired := by
  obtain ⟨retired, visited, released⟩ := Option.map_eq_some_iff.mp ran
  exact ⟨retired, visited, released.symm⟩

/-- A retirement only removes, and it removes its own entry and current pointer. -/
theorem deregister_shrinks {fuel : Nat} {held : List Context} {param : Parameters}
    {state after : State}
    (ran : deregisterCryptoContextGPU fuel held param state = some after) :
    Shrinks state after ∧ after.find param = none ∧
      ∀ context, after.currentContext = some context → context.param.same param = false := by
  induction fuel generalizing held param state after with
  | zero => cases ran
  | succ fuel ih =>
      obtain ⟨retired, visited, rfl⟩ := deregister_frame ran
      generalize state.lockAuxiliaries held (state.find param) = auxiliaries at visited ⊢
      generalize (state.find param).toList ++ auxiliaries ++ held = inside at visited
      have cleared := unregister_shrinks inside param state
      have walked : Shrinks (state.unregister inside param) retired := by
        refine Loop.foldlM_invariant (Shrinks (state.unregister inside param)) ?_ visited
          (Shrinks.refl _)
        intro before auxiliary next _ shrinks moved
        split at moved
        · cases moved
          exact shrinks
        · exact shrinks.trans (ih moved).1
      have released := foldl_release_shrinks held (auxiliaries ++ (state.find param).toList) retired
      have later := walked.trans released.1
      refine ⟨cleared.trans later, ?_, ?_⟩
      · apply later.find_none
        rw [find_none_iff, unregister_contexts]
        intro context member
        simpa using (List.mem_filter.mp member).2
      · intro context current
        exact (unregister_current (later.current context current).1).2

end State
end Fideslib.Registry
