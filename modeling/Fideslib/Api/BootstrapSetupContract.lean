/-
This file proves when the bootstrapping calls of a context keep its tables in step.
-/

import Fideslib.Api.BootstrapSetup

namespace Fideslib.Api.BootstrapSetup

variable {Store Args : Type} {reference : Reference Store Args}

/-- The reference library documents that a slot count of zero is the full packing, that a setup
replaces the entry of its slot count and that keys are generated where there is an entry. -/
structure Reference.Documented (reference : Reference Store Args) : Prop where
  setup_own : ∀ keyDist args slots btsfirstboot store,
    let setup := reference.EvalBootstrapSetup keyDist args slots btsfirstboot store
    let own := ResolveBootstrapSlots reference slots
    reference.precom setup.2 own = some btsfirstboot ∨
      setup.1 = false ∧ reference.precom setup.2 own = reference.precom store own
  setup_other : ∀ keyDist args slots btsfirstboot store other,
    other ≠ ResolveBootstrapSlots reference slots →
      reference.precom (reference.EvalBootstrapSetup keyDist args slots btsfirstboot store).2 other =
        reference.precom store other
  keygen_keeps : ∀ slots store, reference.precom (reference.EvalBootstrapKeyGen slots store).2 =
    reference.precom store
  keygen_returns : ∀ slots store,
    (reference.precom store (ResolveBootstrapSlots reference slots)).isSome →
      (reference.EvalBootstrapKeyGen slots store).1 = true
  keys_keep : ∀ slots store, reference.precom (reference.GenRotationKeys slots store) =
    reference.precom store

theorem resolve_named {slots : Nat} (named : slots ≠ 0) :
    ResolveBootstrapSlots reference slots = slots := if_pos named

theorem modeOf_inj {first second : Bool} (same : modeOf first = modeOf second) : first = second := by
  cases first <;> cases second <;> first | rfl | cases same

theorem modeOf_configured (btsfirstboot : Bool) : modeOf btsfirstboot ≠ .unconfigured := by
  cases btsfirstboot <;> decide

/-- This is what a context with named key generations knows about its slot counts. -/
structure Invariant (reference : Reference Store Args) (session : Session Store) : Prop where
  setups : ∀ slots mode, (slots, mode) ∈ session.setups →
    session.state.bootstrap_mode (ResolveBootstrapSlots reference slots) = some mode
  modes : ∀ slot mode, session.state.bootstrap_mode slot = some mode →
    (∃ slots, (slots, mode) ∈ session.setups ∧ ResolveBootstrapSlots reference slots = slot) ∧
      ∃ btsfirstboot, mode = modeOf btsfirstboot ∧
        reference.precom session.state.store slot = some btsfirstboot
  keygens : session.state.slots_bootstrap = session.keygens
  named : ∀ slots ∈ session.keygens,
    slots ≠ 0 ∧ (session.state.bootstrap_mode slots).isSome
  booted : ∀ slots pre, session.state.boot slots = some pre → slots ∈ session.keygens ∧
    pre.isFBT = false ∧ pre.isFEFunc = false ∧
      reference.precom session.state.store slots = some pre.btsfirstboot
  loaded : session.state.loaded = true → ∀ slots ∈ session.keygens,
    (session.state.boot slots).isSome

theorem fresh_invariant (store : Store) (keyDist : SecretKeyDist) :
    Invariant reference (fresh store keyDist) where
  setups := fun _ _ member => absurd member List.not_mem_nil
  modes := fun _ _ found => nomatch found
  keygens := rfl
  named := fun _ member => absurd member List.not_mem_nil
  booted := fun _ _ found => nomatch found
  loaded := fun loaded => nomatch loaded

section Checks

variable {state : State Store} {slot : Nat}

theorem conflict_some {mode recorded : BootstrapMode}
    (found : state.bootstrap_mode slot = some recorded) (configured : recorded ≠ .unconfigured)
    (differs : recorded ≠ mode) : ∃ failure, CheckBootstrapModeConflict state slot mode = some failure := by
  unfold CheckBootstrapModeConflict
  simp [found, configured, differs]

/-- The mode of a slot count that passed the check is the requested one. -/
theorem conflict_agrees {mode : BootstrapMode}
    (passed : CheckBootstrapModeConflict state slot mode = none) {recorded : BootstrapMode}
    (found : state.bootstrap_mode slot = some recorded) (configured : recorded ≠ .unconfigured) :
    recorded = mode := by
  by_contra differs
  obtain ⟨failure, refused⟩ := conflict_some found configured differs
  rw [refused] at passed
  cases passed

theorem check_allowed {who : String} {allowed : List BootstrapMode}
    (configured : ∀ mode, state.bootstrap_mode slot = some mode → mode ≠ .unconfigured) :
    CheckBootstrapMode state slot allowed who = none ↔
      ∃ mode ∈ allowed, state.bootstrap_mode slot = some mode := by
  unfold CheckBootstrapMode
  cases found : state.bootstrap_mode slot with
  | none => simp
  | some mode =>
      have known := configured mode found
      cases mode with
      | unconfigured => exact absurd rfl known
      | standard => simp
      | stcFirst => simp
      | fbt => simp
      | fefbt => simp

end Checks

section Outcomes

variable {state : State Store}

/-- A setup throws before it reaches the reference library, or it changes the entry there and
records the mode when that returned. -/
theorem setup_cases (args : Args) (slots : Nat) (btsfirstboot : Bool) :
    (∃ failure, EvalBootstrapSetup reference args slots btsfirstboot state = .threw failure state) ∨
    state.loaded = false ∧
      CheckBootstrapModeConflict state (ResolveBootstrapSlots reference slots)
        (modeOf btsfirstboot) = none ∧
      (((reference.EvalBootstrapSetup state.keyDist args slots btsfirstboot state.store).1 = false ∧
        EvalBootstrapSetup reference args slots btsfirstboot state = .threw .reference { state with
          store := (reference.EvalBootstrapSetup state.keyDist args slots btsfirstboot
            state.store).2 }) ∨
      ((reference.EvalBootstrapSetup state.keyDist args slots btsfirstboot state.store).1 = true ∧
        EvalBootstrapSetup reference args slots btsfirstboot state = .returned { state with
          store := (reference.EvalBootstrapSetup state.keyDist args slots btsfirstboot state.store).2
          bootstrap_mode := Function.update state.bootstrap_mode
            (ResolveBootstrapSlots reference slots) (some (modeOf btsfirstboot)) })) := by
  unfold EvalBootstrapSetup
  by_cases loaded : state.loaded = true
  · rw [if_pos loaded]
    exact Or.inl ⟨_, rfl⟩
  · rw [if_neg loaded]
    cases checked : CheckBootstrapModeConflict state (ResolveBootstrapSlots reference slots)
        (modeOf btsfirstboot) with
    | some failure => exact Or.inl ⟨failure, rfl⟩
    | none =>
        by_cases unsupported : state.keyDist = .GAUSSIAN
        · simp only [unsupported, if_true]
          exact Or.inl ⟨_, rfl⟩
        · refine Or.inr ⟨Bool.eq_false_iff.mpr loaded, rfl, ?_⟩
          simp only [unsupported, if_false]
          cases ran : (reference.EvalBootstrapSetup state.keyDist args slots btsfirstboot
              state.store).1 with
          | false => exact Or.inl ⟨rfl, rfl⟩
          | true =>
              refine Or.inr ⟨rfl, ?_⟩
              have again : CheckBootstrapModeConflict { state with
                  store := (reference.EvalBootstrapSetup state.keyDist args slots btsfirstboot
                    state.store).2 } (ResolveBootstrapSlots reference slots)
                  (modeOf btsfirstboot) = none := checked
              simp only [RecordBootstrapMode, again, if_true]

/-- The key generation of a slot count with an entry returns and lists it. -/
theorem keygen_returned (documented : reference.Documented) {slots : Nat} (named : slots ≠ 0)
    (unloaded : state.loaded = false) (present : (reference.precom state.store slots).isSome) :
    ∃ store, reference.precom store = reference.precom state.store ∧
      EvalBootstrapKeyGen reference slots state = .returned
        { state with store, slots_bootstrap := state.slots_bootstrap ++ [slots] } := by
  have ran : (reference.EvalBootstrapKeyGen slots state.store).1 = true := by
    apply documented.keygen_returns
    rwa [resolve_named named]
  obtain ⟨btsfirstboot, entry⟩ := Option.isSome_iff_exists.mp present
  have kept := documented.keygen_keeps slots state.store
  refine ⟨_, (documented.keys_keep slots _).trans kept, ?_⟩
  unfold EvalBootstrapKeyGen
  rw [if_neg (by rw [unloaded]; decide)]
  simp only [ran, if_true, GenBootstrapKeys, kept, entry]

/-- The device gets precomputations of listed slot counts and loses none. -/
structure Loads (reference : Reference Store Args) (listed : List Nat)
    (before after : State Store) : Prop where
  same : after = { before with boot := after.boot }
  kept : ∀ slots pre, before.boot slots = some pre → after.boot slots = some pre
  new : ∀ slots pre, after.boot slots = some pre → before.boot slots = some pre ∨
    slots ∈ listed ∧ pre.isFBT = false ∧ pre.isFEFunc = false ∧
      reference.precom before.store slots = some pre.btsfirstboot

theorem loads_nothing (listed : List Nat) (state : State Store) :
    Loads reference listed state state := ⟨rfl, fun _ _ found => found, fun _ _ => Or.inl⟩

theorem Loads.trans {first second : List Nat} {before middle after : State Store}
    (earlier : Loads reference first before middle) (later : Loads reference second middle after) :
    Loads reference (first ++ second) before after := by
  have store : middle.store = before.store := by rw [earlier.same]
  refine ⟨?_, fun slots pre found => later.kept slots pre (earlier.kept slots pre found), ?_⟩
  · rw [later.same, earlier.same]
  · intro slots pre found
    rcases later.new slots pre found with inMiddle | ⟨listed, plain, regular, entry⟩
    · refine (earlier.new slots pre inMiddle).imp_right fun ⟨listed, rest⟩ => ?_
      exact ⟨List.mem_append_left _ listed, rest⟩
    · rw [store] at entry
      exact Or.inr ⟨List.mem_append_right _ listed, plain, regular, entry⟩

/-- A slot count with an entry is on the device after its load, whether its keys are there or not. -/
theorem add_loads {slots : Nat} (present : (reference.precom state.store slots).isSome) :
    ∃ after, Loads reference [slots] state after ∧ (after.boot slots).isSome ∧
      (AddBootstrapPrecomputation reference slots state = .returned after ∨
        AddBootstrapPrecomputation reference slots state = .threw .reference after) := by
  obtain ⟨btsfirstboot, entry⟩ := Option.isSome_iff_exists.mp present
  unfold AddBootstrapPrecomputation
  simp only [entry]
  by_cases booted : (state.boot slots).isSome = true
  · refine ⟨state, loads_nothing _ _, booted, ?_⟩
    simp only [booted, if_true]
    split_ifs
    · exact Or.inl rfl
    · exact Or.inr rfl
  · refine ⟨{ state with boot := Function.update state.boot slots (some { btsfirstboot }) },
      ⟨rfl, ?_, ?_⟩, ?_, ?_⟩
    · intro other pre found
      have different : other ≠ slots := by
        rintro rfl
        rw [found] at booted
        exact booted rfl
      rw [← found]
      exact Function.update_of_ne different _ _
    · intro other pre found
      change Function.update state.boot slots (some { btsfirstboot }) other = some pre at found
      by_cases same : other = slots
      · subst same
        rw [Function.update_self, Option.some.injEq] at found
        subst found
        exact Or.inr ⟨List.mem_singleton_self _, rfl, rfl, entry⟩
      · rw [Function.update_of_ne same] at found
        exact Or.inl found
    · change (Function.update state.boot slots (some { btsfirstboot }) slots).isSome = true
      rw [Function.update_self]
      rfl
    · rw [if_neg booted]
      split_ifs
      · exact Or.inl rfl
      · exact Or.inr rfl

/-- The loop over the listed slot counts ends, and it returns only with all of them on the device. -/
theorem loadBootstrapping_loads {listed : List Nat} :
    ∀ {state : State Store}, (∀ slots ∈ listed, (reference.precom state.store slots).isSome) →
      ∃ after, Loads reference listed state after ∧
        ((loadBootstrapping reference listed state = .returned after ∧
            ∀ slots ∈ listed, (after.boot slots).isSome) ∨
          ∃ failure, loadBootstrapping reference listed state = .threw failure after) := by
  induction listed with
  | nil =>
      intro state _
      exact ⟨state, loads_nothing _ _, Or.inl ⟨rfl, fun _ member => absurd member List.not_mem_nil⟩⟩
  | cons slots rest inductionHypothesis =>
      intro state present
      obtain ⟨middle, loads, booted, outcome⟩ := @add_loads _ _ reference state slots
        (present slots List.mem_cons_self)
      rcases outcome with returned | threw
      · have store : middle.store = state.store := by rw [loads.same]
        obtain ⟨after, others, ended⟩ := @inductionHypothesis middle (by
          intro other member
          rw [store]
          exact present other (List.mem_cons_of_mem _ member))
        refine ⟨after, loads.trans others, ?_⟩
        simp only [loadBootstrapping, returned]
        rcases ended with ⟨all, complete⟩ | threw
        · refine Or.inl ⟨all, fun other member => ?_⟩
          rcases List.mem_cons.mp member with rfl | later
          · obtain ⟨pre, found⟩ := Option.isSome_iff_exists.mp booted
            rw [others.kept other pre found]
            rfl
          · exact complete other later
        · exact Or.inr threw
      · refine ⟨middle, loads.trans (loads_nothing rest middle), Or.inr ⟨.reference, ?_⟩⟩
        simp only [loadBootstrapping, threw]

end Outcomes

section Pipelines

variable {state : State Store} {slots : Nat}

theorem iterations_allowed {numIterations : Nat} (iterations : numIterations = 1 ∨ numIterations = 2) :
    checkIterations numIterations = .ok () := by
  unfold checkIterations
  rw [if_neg]
  omega

/-- No pipeline starts without a precomputation on the device. -/
theorem pipeline_missing (evaluation : Evaluation) (numIterations : Nat)
    (absent : state.boot slots = none) :
    ∃ failure, evaluation.pipeline state slots numIterations = .error failure := by
  cases evaluation <;>
    simp only [Evaluation.pipeline, Bootstrap, BootstrapStCFirst, GetBootPrecomputation, absent] <;>
      exact ⟨_, rfl⟩

/-- A decode-first precomputation starts the decode-first pipeline in every evaluation. -/
theorem pipeline_decodeFirst (evaluation : Evaluation) (numIterations : Nat)
    (present : state.boot slots = some ⟨true, false, false⟩) :
    evaluation.pipeline state slots numIterations = checkIterations numIterations := by
  cases evaluation <;>
    simp only [Evaluation.pipeline, Bootstrap, BootstrapStCFirst, GetBootPrecomputation, present] <;>
      rfl

theorem pipeline_standard {evaluation : Evaluation} (standard : evaluation ≠ .EvalBootstrapStCFirst)
    (numIterations : Nat) (present : state.boot slots = some ⟨false, false, false⟩) :
    evaluation.pipeline state slots numIterations = checkIterations numIterations := by
  cases evaluation with
  | EvalBootstrapStCFirst => exact absurd rfl standard
  | EvalBootstrap =>
      simp only [Evaluation.pipeline, Bootstrap, GetBootPrecomputation, present]
      rfl
  | EvalBootstrapInPlace =>
      simp only [Evaluation.pipeline, Bootstrap, GetBootPrecomputation, present]
      rfl

end Pipelines

section Steps

variable {session : Session Store} (invariant : Invariant reference session)
include invariant

/-- The modes that are recorded are those of setups. -/
theorem Invariant.configured {slot : Nat} {mode : BootstrapMode}
    (found : session.state.bootstrap_mode slot = some mode) : mode ≠ .unconfigured := by
  obtain ⟨-, btsfirstboot, rfl, -⟩ := invariant.modes slot mode found
  exact modeOf_configured btsfirstboot

theorem Invariant.entry {slots : Nat} (recorded : (session.state.bootstrap_mode slots).isSome) :
    (reference.precom session.state.store slots).isSome := by
  obtain ⟨mode, found⟩ := Option.isSome_iff_exists.mp recorded
  obtain ⟨-, btsfirstboot, -, entry⟩ := invariant.modes slots mode found
  rw [entry]
  rfl

section Setups

variable (documented : reference.Documented) {args : Args} {slots : Nat} {btsfirstboot : Bool}
  (passed : CheckBootstrapModeConflict session.state (ResolveBootstrapSlots reference slots)
    (modeOf btsfirstboot) = none)
include documented passed

/-- A setup that passes the check keeps the flag of every recorded slot count. -/
theorem Invariant.setup_keeps {slot : Nat} {flag : Bool}
    (recorded : (session.state.bootstrap_mode slot).isSome)
    (entry : reference.precom session.state.store slot = some flag) :
    reference.precom (reference.EvalBootstrapSetup session.state.keyDist args slots btsfirstboot
      session.state.store).2 slot = some flag := by
  by_cases own : slot = ResolveBootstrapSlots reference slots
  · obtain ⟨mode, found⟩ := Option.isSome_iff_exists.mp recorded
    obtain ⟨-, known, kind, same⟩ := invariant.modes slot mode found
    rw [own] at found entry same ⊢
    have agrees := conflict_agrees passed found (invariant.configured (own ▸ found))
    rw [kind] at agrees
    rw [same, modeOf_inj agrees] at entry
    rcases documented.setup_own session.state.keyDist args slots btsfirstboot session.state.store with
      replaced | ⟨-, unchanged⟩
    · rw [replaced, entry]
    · rw [unchanged, same, modeOf_inj agrees, entry]
  · rw [documented.setup_other _ _ _ _ _ _ own, entry]

/-- The flag of a precomputation survives a setup that passes the check. -/
theorem Invariant.setup_booted {slot : Nat} {pre : Precomputation}
    (found : session.state.boot slot = some pre) : slot ∈ session.keygens ∧ pre.isFBT = false ∧
      pre.isFEFunc = false ∧ reference.precom (reference.EvalBootstrapSetup session.state.keyDist args
        slots btsfirstboot session.state.store).2 slot = some pre.btsfirstboot := by
  obtain ⟨listed, plain, regular, entry⟩ := invariant.booted slot pre found
  exact ⟨listed, plain, regular,
    invariant.setup_keeps documented passed (invariant.named slot listed).2 entry⟩

/-- A setup that the reference library refuses leaves the recorded modes as they are. -/
theorem Invariant.setup_threw :
    Invariant reference { session with state := { session.state with
      store := (reference.EvalBootstrapSetup session.state.keyDist args slots btsfirstboot
        session.state.store).2 } } where
  setups := invariant.setups
  modes := by
    intro slot mode found
    obtain ⟨made, flag, kind, entry⟩ := invariant.modes slot mode found
    have recorded : (session.state.bootstrap_mode slot).isSome :=
      Option.isSome_iff_exists.mpr ⟨mode, found⟩
    exact ⟨made, flag, kind, invariant.setup_keeps documented passed recorded entry⟩
  keygens := invariant.keygens
  named := invariant.named
  booted := fun slot pre found => invariant.setup_booted documented passed found
  loaded := invariant.loaded

/-- A setup that returns records its mode under the resolved slot count. -/
theorem Invariant.setup_returned
    (ran : (reference.EvalBootstrapSetup session.state.keyDist args slots btsfirstboot
      session.state.store).1 = true) :
    Invariant reference
      { state := { session.state with
          store := (reference.EvalBootstrapSetup session.state.keyDist args slots btsfirstboot
            session.state.store).2
          bootstrap_mode := Function.update session.state.bootstrap_mode
            (ResolveBootstrapSlots reference slots) (some (modeOf btsfirstboot)) }
        setups := session.setups ++ [(slots, modeOf btsfirstboot)]
        keygens := session.keygens } where
  setups := by
    intro other mode member
    change Function.update session.state.bootstrap_mode _ _ _ = _
    rcases List.mem_append.mp member with earlier | latest
    · have found := invariant.setups other mode earlier
      by_cases own : ResolveBootstrapSlots reference other = ResolveBootstrapSlots reference slots
      · rw [own] at found ⊢
        rw [Function.update_self, conflict_agrees passed found (invariant.configured found)]
      · rw [Function.update_of_ne own, found]
    · cases List.mem_singleton.mp latest
      rw [Function.update_self]
  modes := by
    intro slot mode found
    change Function.update session.state.bootstrap_mode _ _ _ = _ at found
    by_cases own : slot = ResolveBootstrapSlots reference slots
    · subst own
      rw [Function.update_self, Option.some.injEq] at found
      subst found
      refine ⟨⟨slots, List.mem_append_right _ (List.mem_singleton_self _), rfl⟩, btsfirstboot, rfl, ?_⟩
      rcases documented.setup_own session.state.keyDist args slots btsfirstboot
          session.state.store with replaced | ⟨refused, -⟩
      · exact replaced
      · rw [ran] at refused
        cases refused
    · rw [Function.update_of_ne own] at found
      obtain ⟨⟨other, member, same⟩, flag, kind, entry⟩ := invariant.modes slot mode found
      have recorded : (session.state.bootstrap_mode slot).isSome :=
        Option.isSome_iff_exists.mpr ⟨mode, found⟩
      exact ⟨⟨other, List.mem_append_left _ member, same⟩, flag, kind,
        invariant.setup_keeps documented passed recorded entry⟩
  keygens := invariant.keygens
  named := by
    intro other member
    obtain ⟨named, recorded⟩ := invariant.named other member
    refine ⟨named, ?_⟩
    change (Function.update session.state.bootstrap_mode _ _ _).isSome = true
    by_cases own : other = ResolveBootstrapSlots reference slots
    · rw [own, Function.update_self]
      rfl
    · rw [Function.update_of_ne own]
      exact recorded
  booted := fun slot pre found => invariant.setup_booted documented passed found
  loaded := invariant.loaded

end Setups

/-- A key generation lists its slot count. -/
theorem Invariant.keygen_kept {slots : Nat} (unloaded : session.state.loaded = false)
    (named : slots ≠ 0) (recorded : (session.state.bootstrap_mode slots).isSome) {store : Store}
    (kept : reference.precom store = reference.precom session.state.store) :
    Invariant reference
      { state := { session.state with
          store, slots_bootstrap := session.state.slots_bootstrap ++ [slots] }
        setups := session.setups
        keygens := session.keygens ++ [slots] } where
  setups := invariant.setups
  modes := by
    intro slot mode found
    obtain ⟨made, flag, kind, entry⟩ := invariant.modes slot mode found
    exact ⟨made, flag, kind, by rw [← entry, ← kept]⟩
  keygens := congrArg (· ++ [slots]) invariant.keygens
  named := by
    intro other member
    rcases List.mem_append.mp member with earlier | latest
    · exact invariant.named other earlier
    · rw [List.mem_singleton.mp latest]
      exact ⟨named, recorded⟩
  booted := by
    intro slot pre found
    obtain ⟨listed, plain, regular, entry⟩ := invariant.booted slot pre found
    exact ⟨List.mem_append_left _ listed, plain, regular, by rw [← entry, ← kept]⟩
  loaded := fun loaded => absurd loaded (by rw [unloaded]; decide)

/-- The loop of a load keeps what is known, and a load that returns has all slot counts. -/
theorem Invariant.loads_kept {after : State Store}
    (loads : Loads reference session.state.slots_bootstrap session.state after) {loaded : Bool}
    (complete : loaded = true → ∀ slots ∈ session.keygens, (after.boot slots).isSome) :
    Invariant reference { session with state := { after with loaded } } := by
  have store : after.store = session.state.store := by rw [loads.same]
  have modes : after.bootstrap_mode = session.state.bootstrap_mode := by rw [loads.same]
  have slots : after.slots_bootstrap = session.state.slots_bootstrap := by rw [loads.same]
  refine ⟨?_, ?_, ?_, ?_, ?_, complete⟩
  · intro slots mode member
    change after.bootstrap_mode _ = _
    rw [modes]
    exact invariant.setups slots mode member
  · intro slot mode found
    change after.bootstrap_mode _ = _ at found
    rw [modes] at found
    change _ ∧ ∃ flag, _ ∧ reference.precom after.store slot = _
    rw [store]
    exact invariant.modes slot mode found
  · exact slots.trans invariant.keygens
  · intro slots member
    change _ ∧ (after.bootstrap_mode slots).isSome = true
    rw [modes]
    exact invariant.named slots member
  · intro slot pre found
    change _ ∧ _ ∧ _ ∧ reference.precom after.store slot = _
    rw [store]
    rcases loads.new slot pre found with before | ⟨listed, rest⟩
    · exact invariant.booted slot pre before
    · rw [invariant.keygens] at listed
      exact ⟨listed, rest⟩

theorem Invariant.load : (∃ state, LoadContext reference session.state = .returned state ∧
      Invariant reference { session with state }) ∨
    ∃ failure state, LoadContext reference session.state = .threw failure state ∧
      Invariant reference { session with state } := by
  unfold LoadContext
  by_cases loaded : session.state.loaded = true
  · rw [if_pos loaded]
    exact Or.inl ⟨_, rfl, invariant⟩
  · rw [if_neg loaded]
    split_ifs
    · exact Or.inr ⟨_, _, rfl, invariant⟩
    · have present : ∀ slots ∈ session.state.slots_bootstrap,
          (reference.precom session.state.store slots).isSome := by
        intro slots listed
        rw [invariant.keygens] at listed
        exact invariant.entry (invariant.named slots listed).2
      obtain ⟨after, loads, ended⟩ := loadBootstrapping_loads present
      rcases ended with ⟨returned, complete⟩ | ⟨failure, threw⟩
      · rw [returned]
        refine Or.inl ⟨_, rfl, ?_⟩
        rw [invariant.keygens] at complete
        exact invariant.loads_kept loads fun _ => complete
      · rw [threw]
        have still : after.loaded = session.state.loaded := by rw [loads.same]
        have kept := @Invariant.loads_kept _ _ _ session invariant after loads after.loaded (by
          intro now
          exact absurd (still ▸ now) loaded)
        exact Or.inr ⟨_, _, rfl, kept⟩

omit invariant in
/-- An evaluation never changes the tables. -/
theorem evaluation_cases (evaluation : Evaluation) (slots numIterations : Nat) (state : State Store) :
    evaluation.run slots numIterations state = .returned state ∨
      ∃ failure, evaluation.run slots numIterations state = .threw failure state := by
  unfold Evaluation.run evaluate
  split_ifs
  · exact Or.inr ⟨_, rfl⟩
  · cases CheckBootstrapMode state slots evaluation.allowed evaluation.who with
    | some failure => exact Or.inr ⟨failure, rfl⟩
    | none =>
        cases evaluation.pipeline state slots numIterations with
        | error failure => exact Or.inr ⟨failure, rfl⟩
        | ok value => exact Or.inl rfl

/-- Every named call returns or throws and keeps what is known. -/
theorem Invariant.call (documented : reference.Documented) (call : Call Args)
    (named : Named call session) :
    (∃ state, call.outcome reference session.state = .returned state ∧
      Invariant reference (session.remember state call)) ∨
    ∃ failure state, call.outcome reference session.state = .threw failure state ∧
      Invariant reference { session with state } := by
  cases call with
  | EvalBootstrapSetup args slots btsfirstboot =>
      rcases @setup_cases _ _ reference session.state args slots btsfirstboot with
        ⟨failure, threw⟩ | ⟨-, passed, ⟨-, threw⟩ | ⟨ran, returned⟩⟩
      · exact Or.inr ⟨failure, _, threw, invariant⟩
      · exact Or.inr ⟨_, _, threw, invariant.setup_threw documented passed⟩
      · exact Or.inl ⟨_, returned, invariant.setup_returned documented passed ran⟩
  | EvalBootstrapKeyGen slots =>
      cases loaded : session.state.loaded with
      | true =>
          refine Or.inr ⟨.openFHE "Context is already loaded", session.state, ?_, invariant⟩
          exact if_pos loaded
      | false =>
          obtain ⟨nonzero, recorded⟩ := named loaded
          obtain ⟨store, kept, returned⟩ :=
            keygen_returned documented nonzero loaded (invariant.entry recorded)
          exact Or.inl ⟨_, returned, invariant.keygen_kept loaded nonzero recorded kept⟩
  | LoadContext => exact invariant.load
  | evaluate evaluation slots numIterations =>
      rcases evaluation_cases evaluation slots numIterations session.state with
        returned | ⟨failure, threw⟩
      · exact Or.inl ⟨_, returned, invariant⟩
      · exact Or.inr ⟨failure, _, threw, invariant⟩

/-- A slot count is listed when a key generation resolves to it. -/
theorem Invariant.listed_iff (slots : Nat) :
    (∃ keygen ∈ session.keygens, ResolveBootstrapSlots reference keygen = slots) ↔
      slots ∈ session.keygens := by
  constructor
  · rintro ⟨keygen, member, same⟩
    rw [resolve_named (invariant.named keygen member).1] at same
    exact same ▸ member
  · intro member
    exact ⟨slots, member, resolve_named (invariant.named slots member).1⟩

theorem Invariant.recorded_iff (slots : Nat) (allowed : List BootstrapMode) :
    (∃ mode ∈ allowed, session.state.bootstrap_mode slots = some mode) ↔
      ∃ setup ∈ session.setups, ResolveBootstrapSlots reference setup.1 = slots ∧
        setup.2 ∈ allowed := by
  constructor
  · rintro ⟨mode, member, found⟩
    obtain ⟨⟨other, made, same⟩, -⟩ := invariant.modes slots mode found
    exact ⟨_, made, same, member⟩
  · rintro ⟨⟨other, mode⟩, made, same, member⟩
    exact ⟨mode, member, same ▸ invariant.setups other mode made⟩

/-- The pipelines of a loaded context start for the slot counts on the device. -/
theorem Invariant.pipeline_iff (loaded : session.state.loaded = true) (evaluation : Evaluation)
    {slots numIterations : Nat} (iterations : numIterations = 1 ∨ numIterations = 2)
    {mode : BootstrapMode} (member : mode ∈ evaluation.allowed)
    (found : session.state.bootstrap_mode slots = some mode) :
    evaluation.pipeline session.state slots numIterations = .ok () ↔ slots ∈ session.keygens := by
  have checked := iterations_allowed iterations
  cases present : session.state.boot slots with
  | none =>
      have unlisted : slots ∉ session.keygens := by
        intro listed
        have onDevice := invariant.loaded loaded slots listed
        rw [present] at onDevice
        cases onDevice
      refine iff_of_false ?_ unlisted
      obtain ⟨failure, refused⟩ := pipeline_missing evaluation numIterations present
      rw [refused]
      exact fun same => nomatch same
  | some pre =>
      obtain ⟨listed, plain, regular, entry⟩ := invariant.booted slots pre present
      obtain ⟨-, flag, kind, known⟩ := invariant.modes slots mode found
      have same : pre.btsfirstboot = flag := Option.some.inj (entry.symm.trans known)
      refine iff_of_true ?_ listed
      obtain ⟨btsfirstboot, isFBT, isFEFunc⟩ := pre
      change isFBT = false at plain
      change isFEFunc = false at regular
      subst plain regular
      cases btsfirstboot with
      | true => rw [pipeline_decodeFirst evaluation numIterations present, checked]
      | false =>
          have standard : evaluation ≠ .EvalBootstrapStCFirst := by
            rintro rfl
            rw [kind, ← same] at member
            exact absurd member (by decide)
          rw [pipeline_standard standard numIterations present, checked]

theorem Invariant.accepted_iff (evaluation : Evaluation) {slots numIterations : Nat}
    (iterations : numIterations = 1 ∨ numIterations = 2) :
    (∃ state, evaluation.run slots numIterations session.state = .returned state) ↔
      session.state.loaded = true ∧
        (∃ setup ∈ session.setups, ResolveBootstrapSlots reference setup.1 = slots ∧
          setup.2 ∈ evaluation.allowed) ∧
        ∃ keygen ∈ session.keygens, ResolveBootstrapSlots reference keygen = slots := by
  rw [← invariant.recorded_iff, invariant.listed_iff]
  have allowed := @check_allowed _ session.state slots evaluation.who evaluation.allowed
    fun mode found => invariant.configured found
  unfold Evaluation.run evaluate
  cases loaded : session.state.loaded with
  | false => simp
  | true =>
      cases checked : CheckBootstrapMode session.state slots evaluation.allowed evaluation.who with
      | some failure =>
          have refused : ¬∃ mode ∈ evaluation.allowed,
              session.state.bootstrap_mode slots = some mode := by
            rw [← allowed, checked]
            exact Option.some_ne_none failure
          simp only [Bool.not_true, Bool.false_eq_true, if_false, reduceCtorEq, exists_false, refused,
            false_and, and_false]
      | none =>
          have recorded := allowed.mp checked
          obtain ⟨mode, member, found⟩ := recorded
          have runs := invariant.pipeline_iff loaded evaluation iterations member found
          rw [← runs]
          cases started : evaluation.pipeline session.state slots numIterations with
          | error failure => simp
          | ok value =>
              simp only [Bool.not_true, Bool.false_eq_true, if_false]
              exact iff_of_true ⟨_, rfl⟩ ⟨trivial, ⟨mode, member, found⟩, trivial⟩

/-- The tables of an invariant session are in step. -/
theorem Invariant.inStep (documented : reference.Documented) :
    InStep reference (@Named Store Args) session where
  conflict := by
    intro args slots btsfirstboot recorded found differs
    rcases @setup_cases _ _ reference session.state args slots btsfirstboot with
      threw | ⟨-, passed, -⟩
    · exact threw
    · exact absurd (conflict_agrees passed found (invariant.configured found)) differs
  registered := by
    intro loaded slots member
    rw [resolve_named (invariant.named slots member).1]
    exact invariant.loaded loaded slots member
  accepted := fun evaluation slots numIterations iterations =>
    invariant.accepted_iff evaluation iterations
  defined := by
    intro call named undefined
    rcases invariant.call documented call named with ⟨state, returned, -⟩ | ⟨failure, state, threw, -⟩
    · rw [undefined] at returned
      cases returned
    · rw [undefined] at threw
      cases threw

end Steps

/-- A step of a named call keeps what is known. -/
theorem step_kept (documented : reference.Documented) {call : Call Args}
    {before after : Session Store} (named : Named call before) (step : Step reference call before after)
    (invariant : Invariant reference before) : Invariant reference after := by
  rcases invariant.call documented call named with
    ⟨state, returned, kept⟩ | ⟨failure, state, threw, kept⟩
  · cases step with
    | returns outcome =>
        rw [returned] at outcome
        cases outcome
        exact kept
    | throws outcome =>
        rw [returned] at outcome
        cases outcome
  · cases step with
    | returns outcome =>
        rw [threw] at outcome
        cases outcome
    | throws outcome =>
        rw [threw] at outcome
        cases outcome
        exact kept

/-- The reference map of this library is all that its calls change. -/
def mapReference : Reference (Nat → Option Bool) Unit where
  cyclotomicOrder := 32
  precom := id
  EvalBootstrapSetup := fun _ _ slots btsfirstboot store =>
    (true, Function.update store (if slots ≠ 0 then slots else 8) (some btsfirstboot))
  EvalBootstrapKeyGen := fun slots store => ((store (if slots ≠ 0 then slots else 8)).isSome, store)
  GenRotationKeys := fun _ store => store
  hasKeys := fun _ => true
  hasBootstrapKeys := fun _ _ => true

theorem mapReference_documented : mapReference.Documented where
  setup_own := fun _ _ slots _ store =>
    Or.inl (Function.update_self (if slots ≠ 0 then slots else 8) _ store)
  setup_other := fun _ _ _ _ store _ differs => Function.update_of_ne differs _ store
  keygen_keeps := fun _ _ => rfl
  keygen_returns := fun _ _ found => found
  keys_keep := fun _ _ => rfl

/-- Every session whose key generations name slot counts that were set up keeps its tables in step. -/
theorem named_sessions_inStep (documented : reference.Documented) (store : Store)
    (keyDist : SecretKeyDist) {session : Session Store}
    (run : StateMachine.Run (Step reference) Named (fresh store keyDist) session) :
    InStep reference (@Named Store Args) session := by
  have invariant := run.invariant (Invariant reference) (fresh_invariant store keyDist)
    fun call before after named step => step_kept documented named step
  exact invariant.inStep documented

/-- The sessions of the map library with one standard setup. -/
def standardSession (setup : Nat) (keygens : List Nat) (boot : Nat → Option Precomputation)
    (loaded : Bool) : Session (Nat → Option Bool) where
  state :=
    ⟨Function.update (fun _ => none) 8 (some false), .UNIFORM_TERNARY, loaded,
      Function.update (fun _ => none) 8 (some .standard), keygens, boot⟩
  setups := [(setup, .standard)]
  keygens := keygens

/-- A context whose eight slots were set up and got keys before loading has its tables in step. -/
theorem eight_slots_inStep :
    ∃ session : Session (Nat → Option Bool), session.state.loaded = true ∧ session.keygens = [8] ∧
      InStep mapReference (@Named _ Unit) session := by
  have setup : StateMachine.Run (Step mapReference) Named (fresh (fun _ => none) .UNIFORM_TERNARY)
      (standardSession 8 [] (fun _ => none) false) :=
    @StateMachine.Run.next _ _ _ _ _ _ _ (.EvalBootstrapSetup () 8 false) .start True.intro
      (.returns rfl)
  have keygen : StateMachine.Run (Step mapReference) Named (fresh (fun _ => none) .UNIFORM_TERNARY)
      (standardSession 8 [8] (fun _ => none) false) :=
    @StateMachine.Run.next _ _ _ _ _ _ _ (.EvalBootstrapKeyGen 8) setup
      (fun _ => ⟨by decide, rfl⟩) (.returns rfl)
  have loaded : StateMachine.Run (Step mapReference) Named (fresh (fun _ => none) .UNIFORM_TERNARY)
      (standardSession 8 [8] (Function.update (fun _ => none) 8 (some ⟨false, false, false⟩)) true) :=
    @StateMachine.Run.next _ _ _ _ _ _ _ .LoadContext keygen True.intro (.returns rfl)
  exact ⟨_, rfl, rfl, named_sessions_inStep mapReference_documented _ _ loaded⟩

/-- A key generation for the full packing follows the end of the reference map. -/
theorem full_packing_undefined :
    ¬∀ session : Session (Nat → Option Bool),
      StateMachine.Run (Step mapReference) (fun _ _ => True)
        (fresh (fun _ => none) .UNIFORM_TERNARY) session →
      InStep mapReference (fun (_ : Call Unit) _ => True) session := by
  intro all
  have setup : StateMachine.Run (Step mapReference) (fun _ _ => True)
      (fresh (fun _ => none) .UNIFORM_TERNARY) (standardSession 0 [] (fun _ => none) false) :=
    @StateMachine.Run.next _ _ _ _ _ _ _ (.EvalBootstrapSetup () 0 false) .start trivial
      (.returns rfl)
  exact (all _ setup).defined (.EvalBootstrapKeyGen 0) trivial rfl

end Fideslib.Api.BootstrapSetup
