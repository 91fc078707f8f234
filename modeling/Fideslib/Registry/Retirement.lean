/-
This file settles which contexts and keys a retirement removes.
-/

import Fideslib.Registry.Sharing

namespace Fideslib.Registry
namespace State

/-- No two registered contexts have equal parameters. -/
def Distinct (state : State) : Prop :=
  state.mapParamContext.Pairwise fun a b => a.param.same b.param = false

/-- Every living context is registered, or nothing is registered under its parameters. -/
def Settled (held : List Context) (state : State) : Prop :=
  ∀ context, state.alive held context = true →
    context ∈ state.mapParamContext ∨ state.find context.param = none

/-- The entries, the current pointer and the owners hold only registered contexts. -/
structure Wf (state : State) : Prop where
  distinct : state.Distinct
  currentRegistered : ∀ context, state.currentContext = some context →
    context ∈ state.mapParamContext
  ownersRegistered : ∀ owner context, state.owners.lookup owner = some context →
    context ∈ state.mapParamContext

variable {state after : State}

/-- Two registered contexts with equal parameters are one context. -/
theorem Distinct.eq_of_same (distinct : state.Distinct) {a b : Context}
    (first : a ∈ state.mapParamContext) (second : b ∈ state.mapParamContext)
    (same : a.param.same b.param = true) : a = b := by
  by_contra different
  have symmetric : Std.Symm fun x y : Context => x.param.same y.param = false :=
    ⟨fun x y apart => by rw [Parameters.same_comm, apart]⟩
  have apart := List.Pairwise.forall distinct first second different
  rw [same] at apart
  cases apart

/-- A registered context is found under its own parameters. -/
theorem Distinct.find_of_mem (distinct : state.Distinct) {context : Context}
    (member : context ∈ state.mapParamContext) : state.find context.param = some context := by
  cases found : state.find context.param with
  | none =>
      have apart := (find_none_iff state context.param).mp found context member
      rw [Parameters.same_self] at apart
      cases apart
  | some other =>
      obtain ⟨registered, same⟩ := find_some found
      rw [distinct.eq_of_same registered member same]

theorem Distinct.shrink (distinct : state.Distinct) (shrinks : Shrinks state after) :
    after.Distinct :=
  List.Pairwise.sublist shrinks.contexts distinct

/-- An erased context leaves no entry under its parameters. -/
theorem Distinct.find_erased (distinct : state.Distinct) (shrinks : Shrinks state after)
    {context : Context} (member : context ∈ state.mapParamContext)
    (erased : context ∉ after.mapParamContext) : after.find context.param = none := by
  rw [find_none_iff]
  intro other registered
  by_contra same
  rw [Bool.not_eq_false] at same
  have equal := distinct.eq_of_same (shrinks.contexts.subset registered) member same
  exact erased (equal ▸ registered)

theorem Settled.shrink {held : List Context} (settled : state.Settled held)
    (distinct : state.Distinct) (shrinks : Shrinks state after) : after.Settled held := by
  intro context living
  by_cases registered : context ∈ after.mapParamContext
  · exact Or.inl registered
  · right
    rcases settled context (shrinks.alive living) with before | absent
    · exact distinct.find_erased shrinks before registered
    · exact shrinks.find_none absent

/-- The locked auxiliaries and the retiring context keep the state settled. -/
theorem Settled.lock {held : List Context} (settled : state.Settled held) (param : Parameters) :
    state.Settled ((state.find param).toList ++ state.lockAuxiliaries held (state.find param) ++
      held) := by
  intro context living
  have before : context ∈ state.mapParamContext ∨ state.alive held context = true := by
    rcases (alive_iff _ _ _).mp living with registered | current | owned | local_
    · exact Or.inl registered
    · exact Or.inr ((alive_iff _ _ _).mpr (Or.inr (Or.inl current)))
    · exact Or.inr ((alive_iff _ _ _).mpr (Or.inr (Or.inr (Or.inl owned))))
    · rcases List.mem_append.mp local_ with front | outer
      · cases found : state.find param with
        | none =>
            rw [found] at front
            cases front
        | some retiring =>
            rw [found] at front
            have registered := (find_some found).1
            rcases List.mem_append.mp front with self | auxiliary
            · exact Or.inl (List.mem_singleton.mp self ▸ registered)
            · have locked := (Bool.and_eq_true_iff.mp (List.mem_filter.mp auxiliary).2).1
              rcases (alive_iff _ _ _).mp locked with again | current | owned | inner
              · exact Or.inl again
              · exact Or.inr ((alive_iff _ _ _).mpr (Or.inr (Or.inl current)))
              · exact Or.inr ((alive_iff _ _ _).mpr (Or.inr (Or.inr (Or.inl owned))))
              · rcases List.mem_cons.mp inner with self | outer
                · exact Or.inl (self ▸ registered)
                · exact Or.inr ((alive_iff _ _ _).mpr (Or.inr (Or.inr (Or.inr outer))))
      · exact Or.inr ((alive_iff _ _ _).mpr (Or.inr (Or.inr (Or.inr outer))))
  rcases before with registered | outer
  · exact Or.inl registered
  · exact settled context outer

theorem shared_iff (state : State) (auxiliary : Context) : state.shared auxiliary = true ↔
    ∃ user ∈ state.mapParamContext, auxiliary ∈ state.auxiliaries user := by
  simp [shared, List.any_eq_true]

/-- A registered auxiliary still has a registered user. -/
def Linked (state : State) (auxiliary : Context) : Prop :=
  auxiliary ∈ state.mapParamContext → state.shared auxiliary = true

/-- A finished retirement spares the keys of what stays and leaves no orphan. -/
structure Closes (before after : State) : Prop extends Shrinks before after where
  spares : ∀ a b tag, (after.find a).isSome → (after.find b).isSome →
    after.getSecretSwitchingKey a b tag = before.getSecretSwitchingKey a b tag
  clears : ∀ context ∈ before.mapParamContext, context ∉ after.mapParamContext →
    ∀ other tag, after.getSecretSwitchingKey context.param other tag = none ∧
      after.getSecretSwitchingKey other context.param tag = none
  covered : ∀ context ∈ before.mapParamContext, context ∉ after.mapParamContext →
    ∀ auxiliary ∈ before.auxiliaries context, after.Linked auxiliary

theorem Closes.refl (state : State) : Closes state state where
  toShrinks := Shrinks.refl state
  spares := fun _ _ _ _ _ => rfl
  clears := fun _ member erased => absurd member erased
  covered := fun _ member erased => absurd member erased

theorem Shrinks.find_isSome {before : State} (shrinks : Shrinks before after) {param : Parameters}
    (present : (after.find param).isSome) : (before.find param).isSome := by
  by_contra absent
  rw [Option.not_isSome_iff_eq_none] at absent
  rw [shrinks.find_none absent] at present
  cases present

/-- A linked auxiliary stays linked, because an erased user passes its auxiliaries on. -/
theorem Closes.linked {before : State} (closes : Closes before after) {auxiliary : Context}
    (linked : before.Linked auxiliary) : after.Linked auxiliary := by
  intro registered
  obtain ⟨user, member, uses⟩ :=
    (shared_iff before auxiliary).mp (linked (closes.contexts.subset registered))
  by_cases stays : user ∈ after.mapParamContext
  · exact (shared_iff after auxiliary).mpr ⟨user, stays, by
      rw [closes.toShrinks.auxiliaries]; exact uses⟩
  · exact closes.covered user member stays auxiliary uses registered

theorem Closes.trans {first second third : State} (early : Closes first second)
    (late : Closes second third) : Closes first third where
  toShrinks := early.toShrinks.trans late.toShrinks
  spares := fun a b tag presentA presentB =>
    (late.spares a b tag presentA presentB).trans
      (early.spares a b tag (late.toShrinks.find_isSome presentA)
        (late.toShrinks.find_isSome presentB))
  clears := by
    intro context member erased other tag
    by_cases middle : context ∈ second.mapParamContext
    · exact late.clears context middle erased other tag
    · obtain ⟨left, right⟩ := early.clears context member middle other tag
      exact ⟨late.keys _ _ _ left, late.keys _ _ _ right⟩
  covered := by
    intro context member erased auxiliary uses
    by_cases middle : context ∈ second.mapParamContext
    · exact late.covered context middle erased auxiliary
        (by rw [early.toShrinks.auxiliaries]; exact uses)
    · exact late.linked (early.covered context member middle auxiliary uses)

/-- Parameters with an entry are not equal to parameters without one. -/
theorem not_same_of_find {param other : Parameters} (absent : state.find param = none)
    (present : (state.find other).isSome) : other.same param = false := by
  obtain ⟨context, found⟩ := Option.isSome_iff_exists.mp present
  obtain ⟨member, same⟩ := find_some found
  have apart := (find_none_iff state param).mp absent context member
  rwa [Parameters.same_congr same] at apart

theorem release_contexts (held : List Context) (state : State) (context : Context) :
    (state.release held context).mapParamContext = state.mapParamContext := by
  rcases release_cases held state context with ⟨_, equal⟩ | ⟨_, equal⟩ <;> rw [equal]
  rfl

/-- A released pointer closes the state when its context is registered or has no entry. -/
theorem release_closes {held : List Context} {context : Context}
    (settled : context ∈ state.mapParamContext ∨ state.find context.param = none) :
    Closes state (state.release held context) := by
  have same := release_contexts held state context
  refine ⟨release_shrinks held state context, ?_, ?_, ?_⟩
  · intro a b tag presentA presentB
    rcases release_cases held state context with ⟨_, equal⟩ | ⟨dead, equal⟩
    · rw [equal]
    · have absent : state.find context.param = none := by
        rcases settled with registered | absent
        · rw [(alive_iff state held context).mpr (Or.inl registered)] at dead
          cases dead
        · exact absent
      rw [equal] at presentA presentB ⊢
      rw [getSecretSwitchingKey_destruct, not_same_of_find absent presentA,
        not_same_of_find absent presentB]
      rfl
  · intro other member erased
    exact absurd (same ▸ member) erased
  · intro other member erased
    exact absurd (same ▸ member) erased

/-- Released pointers close the state when each is registered or has no entry. -/
theorem foldl_release_closes {held contexts : List Context}
    (settled : ∀ context ∈ contexts, context ∈ state.mapParamContext ∨
      state.find context.param = none) :
    Closes state (contexts.foldl (release held) state) := by
  induction contexts generalizing state with
  | nil => exact Closes.refl state
  | cons context rest ih =>
      refine (release_closes (settled context List.mem_cons_self)).trans (ih ?_)
      intro other member
      rw [find, release_contexts]
      exact settled other (List.mem_cons_of_mem _ member)

/-- These contexts retire with the root: its auxiliaries that only retiring contexts use. -/
inductive Retires (state : State) (root : Context) : Context → Prop
  | root : Retires state root root
  | auxiliary {user context : Context} (retires : Retires state root user)
      (uses : context ∈ state.auxiliaries user) (different : context ≠ user)
      (registered : context ∈ state.mapParamContext)
      (only : ∀ other ∈ state.mapParamContext, context ∈ state.auxiliaries other →
        Retires state root other) : Retires state root context

/-- Every erased context retires with the root. -/
def Sound (origin : State) (root : Context) (state : State) : Prop :=
  ∀ context ∈ origin.mapParamContext, context ∉ state.mapParamContext → Retires origin root context

/-- The recursion with this fuel closes a state and erases only contexts that retire with the root. -/
def ClosesWith (fuel : Nat) : Prop :=
  ∀ (held : List Context) (param : Parameters) (state after : State),
    state.Distinct → state.Settled held →
      deregisterCryptoContextGPU fuel held param state = some after →
        Closes state after ∧ ∀ origin root, Shrinks origin state → Sound origin root state →
          (∀ context, state.find param = some context → Retires origin root context) →
            Sound origin root after

/-- One visit closes the state, and the visited auxiliary is linked or erased. -/
theorem ClosesWith.visit {fuel : Nat} (recursion : ClosesWith fuel) {inside : List Context}
    {auxiliary : Context} (distinct : state.Distinct) (settled : state.Settled inside)
    (inHeld : auxiliary ∈ inside)
    (moved : (if state.shared auxiliary then some state else
      deregisterCryptoContextGPU fuel inside auxiliary.param state) = some after) :
    Closes state after ∧ after.Linked auxiliary ∧
      ∀ origin root, Shrinks origin state → Sound origin root state →
        (state.shared auxiliary = false → auxiliary ∈ state.mapParamContext →
          Retires origin root auxiliary) → Sound origin root after := by
  split at moved
  case isTrue shared =>
    cases moved
    exact ⟨Closes.refl state, fun _ => shared, fun _ _ _ sound _ => sound⟩
  case isFalse unshared =>
    obtain ⟨closes, keepsSound⟩ := recursion inside auxiliary.param state after distinct settled moved
    refine ⟨closes, ?_, ?_⟩
    · intro registered
      have apart := (find_none_iff after auxiliary.param).mp (deregister_shrinks moved).2.1
        auxiliary registered
      rw [Parameters.same_self] at apart
      cases apart
    · intro origin root shrinks sound retires
      apply keepsSound origin root shrinks sound
      intro context found
      have living : state.alive inside auxiliary = true :=
        (alive_iff _ _ _).mpr (Or.inr (Or.inr (Or.inr inHeld)))
      rcases settled auxiliary living with registered | absent
      · cases (distinct.find_of_mem registered).symm.trans found
        exact retires (by simpa using unshared) registered
      · rw [absent] at found
        cases found

theorem find_unregister (held : List Context) (param : Parameters) (state : State) :
    (state.unregister held param).find param = none := by
  rw [find_none_iff, unregister_contexts]
  intro context member
  simpa using (List.mem_filter.mp member).2

/-- A cleared registration erases only the context that was found. -/
theorem Distinct.find_unregistered (distinct : state.Distinct) {held : List Context}
    {param : Parameters} {context : Context} (member : context ∈ state.mapParamContext)
    (erased : context ∉ (state.unregister held param).mapParamContext) :
    context.param.same param = true ∧ state.find param = some context := by
  rw [unregister_contexts] at erased
  have same : context.param.same param = true := by
    by_contra apart
    exact erased (List.mem_filter.mpr ⟨member, by simpa using apart⟩)
  cases found : state.find param with
  | none =>
      rw [(find_none_iff state param).mp found context member] at same
      cases same
  | some retiring =>
      obtain ⟨registered, equal⟩ := find_some found
      have both : context.param.same retiring.param = true := by
        rw [Parameters.same_congr same, Parameters.same_comm, equal]
      rw [distinct.eq_of_same member registered both]
      exact ⟨equal, rfl⟩

/-- The visits close the state from before the cleared registration when they link its
auxiliaries. -/
theorem Closes.ofUnregistered {retired : State} {held inside : List Context} {param : Parameters}
    (distinct : state.Distinct) (walked : Closes (state.unregister inside param) retired)
    (linked : ∀ auxiliary ∈ state.lockAuxiliaries held (state.find param),
      retired.Linked auxiliary) : Closes state retired := by
  have cleared := unregister_shrinks inside param state
  refine ⟨cleared.trans walked.toShrinks, ?_, ?_, ?_⟩
  · intro a b tag presentA presentB
    have absent := find_unregister inside param state
    rw [walked.spares a b tag presentA presentB, getSecretSwitchingKey_unregister,
      not_same_of_find absent (walked.toShrinks.find_isSome presentA),
      not_same_of_find absent (walked.toShrinks.find_isSome presentB)]
    rfl
  · intro context member erased other tag
    by_cases middle : context ∈ (state.unregister inside param).mapParamContext
    · exact walked.clears context middle erased other tag
    · have same := (distinct.find_unregistered member middle).1
      constructor
      · apply walked.keys
        rw [getSecretSwitchingKey_unregister, same]
        rfl
      · apply walked.keys
        rw [getSecretSwitchingKey_unregister, same, Bool.or_true]
        rfl
  · intro context member erased auxiliary uses
    by_cases middle : context ∈ (state.unregister inside param).mapParamContext
    · exact walked.covered context middle erased auxiliary
        (by rw [cleared.auxiliaries]; exact uses)
    · have found := (distinct.find_unregistered member middle).2
      intro registered
      have before := (cleared.trans walked.toShrinks).contexts.subset registered
      apply linked auxiliary _ registered
      rw [found]
      refine List.mem_filter.mpr ⟨uses, ?_⟩
      have different : auxiliary ≠ context := by
        rintro rfl
        exact erased registered
      simp [different, (alive_iff state (context :: held) auxiliary).mpr (Or.inl before)]

/-- A locked auxiliary that no registered context uses retires with the root. -/
theorem Retires.ofLocked {origin before : State} {root auxiliary : Context} {held : List Context}
    {param : Parameters} (shrinks : Shrinks origin state) (reach : Shrinks origin before)
    (sound : Sound origin root before)
    (retires : ∀ context, state.find param = some context → Retires origin root context)
    (member : auxiliary ∈ state.lockAuxiliaries held (state.find param))
    (unshared : before.shared auxiliary = false) (registered : auxiliary ∈ before.mapParamContext) :
    Retires origin root auxiliary := by
  cases found : state.find param with
  | none =>
      rw [found] at member
      cases member
  | some retiring =>
      rw [found] at member
      obtain ⟨uses, conditions⟩ := List.mem_filter.mp member
      have different := (Bool.and_eq_true_iff.mp conditions).2
      refine .auxiliary (retires retiring found) (shrinks.auxiliaries retiring ▸ uses)
        (by simpa using different) (reach.contexts.subset registered) ?_
      intro other otherRegistered otherUses
      apply sound other otherRegistered
      intro stays
      rw [(shared_iff before auxiliary).mpr ⟨other, stays, by
        rw [reach.auxiliaries]; exact otherUses⟩] at unshared
      cases unshared

theorem closesWith (fuel : Nat) : ClosesWith fuel := by
  induction fuel with
  | zero =>
      intro held param state after _ _ ran
      cases ran
  | succ fuel ih =>
      intro held param state after distinct settled ran
      obtain ⟨retired, visited, rfl⟩ := deregister_frame ran
      have locked := settled.lock param
      generalize insideEq : (state.find param).toList ++
        state.lockAuxiliaries held (state.find param) ++ held = inside at visited locked
      have inHeld (auxiliary : Context)
          (member : auxiliary ∈ state.lockAuxiliaries held (state.find param)) :
          auxiliary ∈ inside := by
        rw [← insideEq]
        exact List.mem_append_left _ (List.mem_append_right _ member)
      have cleared := unregister_shrinks inside param state
      have clearedDistinct := distinct.shrink cleared
      have clearedSettled := locked.shrink distinct cleared
      have visit (before : State) (auxiliary : Context) (next : State)
          (member : auxiliary ∈ state.lockAuxiliaries held (state.find param))
          (closes : Closes (state.unregister inside param) before) (moved) :=
        @ClosesWith.visit before next fuel ih inside auxiliary (clearedDistinct.shrink closes.toShrinks)
          (clearedSettled.shrink clearedDistinct closes.toShrinks) (inHeld auxiliary member) moved
      have walked : Closes (state.unregister inside param) retired :=
        Loop.foldlM_invariant (Closes (state.unregister inside param))
          (fun before auxiliary next member closes moved =>
            closes.trans (visit before auxiliary next member closes moved).1)
          visited (Closes.refl _)
      have linked : ∀ auxiliary ∈ state.lockAuxiliaries held (state.find param),
          retired.Linked auxiliary :=
        Loop.foldlM_visits (Closes (state.unregister inside param))
          (fun auxiliary current => current.Linked auxiliary)
          (fun before auxiliary next member closes moved =>
            closes.trans (visit before auxiliary next member closes moved).1)
          (fun before auxiliary next member closes moved =>
            (visit before auxiliary next member closes moved).2.1)
          (fun other before auxiliary next member closes moved was =>
            (visit before auxiliary next member closes moved).1.linked was)
          visited (Closes.refl _)
      have retiredSettled := clearedSettled.shrink clearedDistinct walked.toShrinks
      have released : Closes retired ((state.lockAuxiliaries held (state.find param) ++
          (state.find param).toList).foldl (release held) retired) := by
        apply foldl_release_closes
        intro context member
        apply retiredSettled
        rw [alive_iff, ← insideEq]
        refine Or.inr (Or.inr (Or.inr (List.mem_append_left _ ?_)))
        rcases List.mem_append.mp member with auxiliary | self
        · exact List.mem_append_right _ auxiliary
        · exact List.mem_append_left _ self
      refine ⟨(Closes.ofUnregistered distinct walked linked).trans released, ?_⟩
      intro origin root shrinks sound retires
      have clearedSound : Sound origin root (state.unregister inside param) := by
        intro context member erased
        by_cases before : context ∈ state.mapParamContext
        · exact retires context (distinct.find_unregistered before erased).2
        · exact sound context member before
      have walkedSound : Closes (state.unregister inside param) retired ∧
          Sound origin root retired := by
        refine Loop.foldlM_invariant (fun current =>
          Closes (state.unregister inside param) current ∧ Sound origin root current) ?_ visited
          ⟨Closes.refl _, clearedSound⟩
        rintro before auxiliary next member ⟨closes, soundBefore⟩ moved
        obtain ⟨nextCloses, _, nextSound⟩ := visit before auxiliary next member closes moved
        have reach := (shrinks.trans cleared).trans closes.toShrinks
        exact ⟨closes.trans nextCloses, nextSound origin root reach soundBefore
          (Retires.ofLocked shrinks reach soundBefore retires member)⟩
      intro context member erased
      apply walkedSound.2 context member
      rwa [(foldl_release_shrinks held _ retired).2] at erased

/-- The recursion closes the state and erases only contexts that retire with the root. -/
theorem deregister_closes {fuel : Nat} {held : List Context} {param : Parameters}
    (distinct : state.Distinct) (settled : state.Settled held)
    (ran : deregisterCryptoContextGPU fuel held param state = some after) :
    Closes state after ∧ ∀ origin root, Shrinks origin state → Sound origin root state →
      (∀ context, state.find param = some context → Retires origin root context) →
        Sound origin root after :=
  closesWith fuel held param state after distinct settled ran

/-- Every context that retires with an erased root is erased. -/
theorem Closes.erases {root : Context} (closes : Closes state after)
    (member : root ∈ state.mapParamContext) (erased : root ∉ after.mapParamContext)
    {context : Context} (retires : Retires state root context) :
    context ∈ state.mapParamContext ∧ context ∉ after.mapParamContext := by
  induction retires with
  | root => exact ⟨member, erased⟩
  | auxiliary _ uses _ registered _ userErased otherErased =>
      refine ⟨registered, fun stays => ?_⟩
      have shared := closes.covered _ userErased.1 userErased.2 _ uses stays
      obtain ⟨other, otherStays, otherUses⟩ := (shared_iff after _).mp shared
      have before := closes.contexts.subset otherStays
      rw [closes.toShrinks.auxiliaries] at otherUses
      exact (otherErased other before otherUses).2 otherStays

/-- An unregistered entry shortens the registry. -/
theorem unregister_length (held : List Context) {param : Parameters} {retiring : Context}
    (found : state.find param = some retiring) :
    (state.unregister held param).mapParamContext.length < state.mapParamContext.length := by
  obtain ⟨member, same⟩ := find_some found
  rw [unregister_contexts]
  exact List.length_filter_lt_length_iff_exists.mpr ⟨retiring, member, by simp [same]⟩

/-- Every frame erases an entry before it recurses, so this much fuel suffices. -/
theorem deregister_returns {fuel : Nat} (held : List Context) (param : Parameters)
    (enough : state.mapParamContext.length < fuel) :
    ∃ after, deregisterCryptoContextGPU fuel held param state = some after := by
  induction fuel generalizing held param state with
  | zero => omega
  | succ fuel ih =>
      cases found : state.find param with
      | none =>
          unfold deregisterCryptoContextGPU
          rw [found]
          exact ⟨_, rfl⟩
      | some retiring =>
          have visit (inside : List Context) (before : State) (auxiliary : Context)
              (small : before.mapParamContext.length < fuel) :
              ∃ next, (if before.shared auxiliary then some before else
                  deregisterCryptoContextGPU fuel inside auxiliary.param before) = some next ∧
                next.mapParamContext.length < fuel := by
            split
            · exact ⟨before, rfl, small⟩
            · obtain ⟨next, ran⟩ := ih inside auxiliary.param small
              have shorter := (deregister_shrinks ran).1.contexts.length_le
              exact ⟨next, ran, by omega⟩
          unfold deregisterCryptoContextGPU
          dsimp only
          generalize state.lockAuxiliaries held (state.find param) = auxiliaries
          generalize (state.find param).toList ++ auxiliaries ++ held = inside
          have smaller : (state.unregister inside param).mapParamContext.length < fuel := by
            have below := unregister_length inside found
            omega
          obtain ⟨retired, visited⟩ := Loop.foldlM_succeeds
            (fun current : State => current.mapParamContext.length < fuel)
            (fun before auxiliary (_ : auxiliary ∈ auxiliaries) small =>
              visit inside before auxiliary small) smaller
          rw [visited]
          exact ⟨_, rfl⟩

end State
end Fideslib.Registry
