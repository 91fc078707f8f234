/-
This file gives the rules of triples and simulations for calls that may throw.
-/

import Mathlib.Tactic

namespace ThrowingCalls

variable {Fault State Value Next : Type}

/-- A call leaves a final state whether it returns or throws. -/
def final (call : EStateM Fault State Value) (state : State) : State :=
  match call.run state with
  | .ok _ after => after
  | .error _ after => after

/-- A triple speaks about a call that returns and about a call that throws. -/
def Triple (before : State → Prop) (call : EStateM Fault State Value)
    (after : Value → State → Prop) (thrown : State → Prop) : Prop :=
  ∀ state, before state →
    match call.run state with
    | .ok value last => after value last
    | .error _ last => thrown last

variable {before : State → Prop} {call : EStateM Fault State Value}
  {after : Value → State → Prop} {thrown : State → Prop}

variable {state : State}

/-- A triple at one state only speaks about the run from it. -/
theorem Triple.holds (triple : Triple (· = state) call after thrown) :
    match call.run state with
    | .ok value last => after value last
    | .error _ last => thrown last :=
  triple state rfl

theorem Triple.returns {value : Value} (holds : after value state) :
    Triple (· = state) (pure value : EStateM Fault State Value) after thrown := by
  rintro _ rfl
  exact holds

theorem Triple.throws {fault : Fault} (holds : thrown state) :
    Triple (· = state) (throw fault : EStateM Fault State Value) after thrown := by
  rintro _ rfl
  exact holds

theorem Triple.modifies {change : State → State} {after : Unit → State → Prop}
    (holds : after () (change state)) :
    Triple (· = state) (modify change : EStateM Fault State Unit) after thrown := by
  rintro _ rfl
  exact holds

/-- A call that reads the state continues from exactly that state. -/
theorem Triple.reads {next : State → EStateM Fault State Value}
    (continues : Triple (· = state) (next state) after thrown) :
    Triple (· = state) (get >>= next) after thrown := by
  rintro _ rfl
  exact continues.holds

/-- A call that changes the state continues from the changed state. -/
theorem Triple.writes {change : State → State} {next : EStateM Fault State Value}
    (continues : Triple (· = change state) next after thrown) :
    Triple (· = state) (modify change >>= fun _ => next) after thrown := by
  rintro _ rfl
  exact continues.holds

/-- A sequence needs a middle property. -/
theorem Triple.bind {next : Value → EStateM Fault State Next} {middle : Value → State → Prop}
    {last : Next → State → Prop} (first : Triple before call middle thrown)
    (second : ∀ value, Triple (middle value) (next value) last thrown) :
    Triple before (call >>= next) last thrown := by
  intro state given
  have begins := first state given
  change match (EStateM.bind call next) state with | .ok _ _ => _ | .error _ _ => _
  unfold EStateM.bind
  change match call state with | .ok _ _ => _ | .error _ _ => _ at begins
  cases result : call state with
  | ok value reached =>
      rw [result] at begins
      exact second value reached begins
  | error fault reached =>
      rw [result] at begins
      exact begins

/-- A triple allows a stronger start and weaker ends. -/
theorem Triple.weaken {stronger : State → Prop} {weaker : Value → State → Prop}
    {softer : State → Prop} (triple : Triple before call after thrown)
    (starts : ∀ state, stronger state → before state)
    (ends : ∀ value state, after value state → weaker value state)
    (fails : ∀ state, thrown state → softer state) : Triple stronger call weaker softer := by
  intro state given
  have holds := triple state (starts state given)
  cases result : call.run state with
  | ok value last =>
      rw [result] at holds
      exact ends value last holds
  | error fault last =>
      rw [result] at holds
      exact fails last holds

/-- A sequence may begin with a call that throws without an effect. -/
theorem Triple.bind_still {next : Value → EStateM Fault State Next}
    {middle : Value → State → Prop} {last : Next → State → Prop}
    (first : Triple (· = state) call middle (· = state)) (still : thrown state)
    (second : ∀ value reached, middle value reached →
      Triple (· = reached) (next value) last thrown) :
    Triple (· = state) (call >>= next) last thrown := by
  apply Triple.bind (first.weaken (fun _ given => given) (fun _ _ given => given)
    (fun _ same => same ▸ still))
  intro value reached given
  exact (second value reached given).holds

/-- A scope runs its exit whether the body returns or throws. -/
def withScope (enter leave : State → State) (body : EStateM Fault State Value) :
    EStateM Fault State Value := fun state =>
  match body (enter state) with
  | .ok value after => .ok value (leave after)
  | .error fault after => .error fault (leave after)

/-- The exit of a scope acts on both ends of the body. -/
theorem Triple.scope {enter leave : State → State}
    (inner : Triple (· = enter state) call (fun value reached => after value (leave reached))
      fun reached => thrown (leave reached)) :
    Triple (· = state) (withScope enter leave call) after thrown := by
  rintro _ rfl
  have ends := inner.holds
  change match withScope enter leave call _ with | .ok _ _ => _ | .error _ _ => _
  change match call _ with | .ok _ _ => _ | .error _ _ => _ at ends
  unfold withScope
  split at ends
  case h_1 => exact ends
  case h_2 => exact ends

/-- A property of both ends holds in the final state. -/
theorem Triple.final {ends : State → Prop} (triple : Triple before call (fun _ => ends) ends)
    (given : before state) : ends (final call state) := by
  have holds := triple state given
  unfold ThrowingCalls.final
  cases result : call.run state with
  | ok value last =>
      rw [result] at holds
      exact holds
  | error fault last =>
      rw [result] at holds
      exact holds

end ThrowingCalls

namespace ThrowingCalls

variable {Fault State Shadow Value Next : Type} {relation : State → Shadow → Prop}
  {state : State} {shadow : Shadow}

/-- A call and its specification return or throw the same and end in related states. -/
def Simulates (relation : State → Shadow → Prop) (call : EStateM Fault State Value)
    (spec : EStateM Fault Shadow Value) (state : State) (shadow : Shadow) : Prop :=
  match call.run state, spec.run shadow with
  | .ok value after, .ok result reached => value = result ∧ relation after reached
  | .error fault after, .error thrown reached => fault = thrown ∧ relation after reached
  | _, _ => False

theorem Simulates.returns (value : Value) (related : relation state shadow) :
    Simulates relation (pure value : EStateM Fault State Value) (pure value) state shadow :=
  ⟨rfl, related⟩

theorem Simulates.throws (fault : Fault) (related : relation state shadow) :
    Simulates relation (throw fault : EStateM Fault State Value) (throw fault) state shadow :=
  ⟨rfl, related⟩

theorem Simulates.modifies {change : State → State} {follow : Shadow → Shadow}
    (related : relation (change state) (follow shadow)) :
    Simulates relation (modify change : EStateM Fault State Unit) (modify follow) state shadow :=
  ⟨rfl, related⟩

/-- Two calls that return one value are a simulation. -/
theorem Simulates.of_ok {call : EStateM Fault State Value} {spec : EStateM Fault Shadow Value}
    {value : Value} {after : State} {reached : Shadow} (called : call.run state = .ok value after)
    (specified : spec.run shadow = .ok value reached) (related : relation after reached) :
    Simulates relation call spec state shadow := by
  unfold Simulates
  rw [called, specified]
  exact ⟨rfl, related⟩

/-- Two calls that throw one fault are a simulation. -/
theorem Simulates.of_error {call : EStateM Fault State Value} {spec : EStateM Fault Shadow Value}
    {fault : Fault} {after : State} {reached : Shadow} (called : call.run state = .error fault after)
    (specified : spec.run shadow = .error fault reached) (related : relation after reached) :
    Simulates relation call spec state shadow := by
  unfold Simulates
  rw [called, specified]
  exact ⟨rfl, related⟩

/-- A change that the specification does not see keeps the relation. -/
theorem Simulates.hides {change : State → State} (related : relation (change state) shadow) :
    Simulates relation (modify change : EStateM Fault State Unit) (pure ()) state shadow :=
  ⟨rfl, related⟩

/-- Both calls continue from the states that they read. -/
theorem Simulates.reads {next : State → EStateM Fault State Value}
    {follow : Shadow → EStateM Fault Shadow Value}
    (continues : Simulates relation (next state) (follow shadow) state shadow) :
    Simulates relation (get >>= next) (get >>= follow) state shadow := continues

/-- A sequence continues from every pair of related states that the first calls return to. -/
theorem Simulates.bind {call : EStateM Fault State Value} {spec : EStateM Fault Shadow Value}
    {next : Value → EStateM Fault State Next} {follow : Value → EStateM Fault Shadow Next}
    (first : Simulates relation call spec state shadow)
    (second : ∀ value after reached, call.run state = .ok value after →
      spec.run shadow = .ok value reached → relation after reached →
      Simulates relation (next value) (follow value) after reached) :
    Simulates relation (call >>= next) (spec >>= follow) state shadow := by
  unfold Simulates at first
  change match EStateM.bind call next state, EStateM.bind spec follow shadow with
    | .ok _ _, .ok _ _ => _ | .error _ _, .error _ _ => _ | _, _ => _
  unfold EStateM.bind
  cases called : call.run state with
  | ok value after =>
      cases specified : spec.run shadow with
      | ok result reached =>
          rw [called, specified] at first
          obtain ⟨rfl, related⟩ := first
          have continues := second value after reached called specified related
          change call state = _ at called
          change spec shadow = _ at specified
          rw [called, specified]
          exact continues
      | error thrown reached =>
          rw [called, specified] at first
          exact first.elim
  | error fault after =>
      cases specified : spec.run shadow with
      | ok result reached =>
          rw [called, specified] at first
          exact first.elim
      | error thrown reached =>
          rw [called, specified] at first
          change call state = _ at called
          change spec shadow = _ at specified
          rw [called, specified]
          exact first

/-- A scope that the specification does not see runs its exit in every case. -/
theorem Simulates.scope {inside : State → Shadow → Prop} {enter leave : State → State}
    {body : EStateM Fault State Value} {spec : EStateM Fault Shadow Value}
    (leaves : ∀ after reached, inside after reached → relation (leave after) reached)
    (inner : Simulates inside body spec (enter state) shadow) :
    Simulates relation (withScope enter leave body) spec state shadow := by
  unfold Simulates at inner ⊢
  change match withScope enter leave body state, spec.run shadow with
    | .ok _ _, .ok _ _ => _ | .error _ _, .error _ _ => _ | _, _ => _
  unfold withScope
  change match body (enter state), spec.run shadow with
    | .ok _ _, .ok _ _ => _ | .error _ _, .error _ _ => _ | _, _ => _ at inner
  cases ran : body (enter state) with
  | ok value after =>
      rw [ran] at inner
      cases specified : spec.run shadow with
      | ok result reached =>
          rw [specified] at inner
          exact ⟨inner.1, leaves _ _ inner.2⟩
      | error thrown reached =>
          rw [specified] at inner
          exact inner.elim
  | error fault after =>
      rw [ran] at inner
      cases specified : spec.run shadow with
      | ok result reached =>
          rw [specified] at inner
          exact inner.elim
      | error thrown reached =>
          rw [specified] at inner
          exact ⟨inner.1, leaves _ _ inner.2⟩

/-- The specification follows a call that returns. -/
theorem Simulates.follows {call : EStateM Fault State Value} {spec : EStateM Fault Shadow Value}
    (simulates : Simulates relation call spec state shadow) {value : Value} {after : State}
    (called : call.run state = .ok value after) :
    ∃ reached, spec.run shadow = .ok value reached ∧ relation after reached := by
  unfold Simulates at simulates
  rw [called] at simulates
  cases specified : spec.run shadow with
  | ok result reached =>
      rw [specified] at simulates
      exact ⟨reached, by rw [simulates.1], simulates.2⟩
  | error thrown reached =>
      rw [specified] at simulates
      exact simulates.elim

/-- A simulation may forget a part of its relation. -/
theorem Simulates.weaken {weaker : State → Shadow → Prop} {call : EStateM Fault State Value}
    {spec : EStateM Fault Shadow Value} (simulates : Simulates relation call spec state shadow)
    (implies : ∀ after reached, relation after reached → weaker after reached) :
    Simulates weaker call spec state shadow := by
  unfold Simulates at simulates ⊢
  split at simulates
  case h_1 => exact ⟨simulates.1, implies _ _ simulates.2⟩
  case h_2 => exact ⟨simulates.1, implies _ _ simulates.2⟩
  case h_3 => exact simulates.elim

/-- What holds in the final state of the call may join the relation. -/
theorem Simulates.strengthen {property : State → Prop} {call : EStateM Fault State Value}
    {spec : EStateM Fault Shadow Value} (simulates : Simulates relation call spec state shadow)
    (holds : property (ThrowingCalls.final call state)) :
    Simulates (fun after reached => relation after reached ∧ property after) call spec state
      shadow := by
  unfold ThrowingCalls.final at holds
  unfold Simulates at simulates ⊢
  cases called : call.run state with
  | ok value after =>
      rw [called] at holds simulates
      cases specified : spec.run shadow with
      | ok result reached =>
          rw [specified] at simulates
          exact ⟨simulates.1, simulates.2, holds⟩
      | error thrown reached =>
          rw [specified] at simulates
          exact simulates.elim
  | error fault after =>
      rw [called] at holds simulates
      cases specified : spec.run shadow with
      | ok result reached =>
          rw [specified] at simulates
          exact simulates.elim
      | error thrown reached =>
          rw [specified] at simulates
          exact ⟨simulates.1, simulates.2, holds⟩

theorem final_of_ok {call : EStateM Fault State Value} {value : Value} {after : State}
    (called : call.run state = .ok value after) : final call state = after := by
  unfold ThrowingCalls.final
  rw [called]

/-- A sequence that returns passes through the state that its first call returns to. -/
theorem bind_ok {call : EStateM Fault State Value} {next : Value → EStateM Fault State Next}
    {value : Next} {last : State} (done : (call >>= next).run state = .ok value last) :
    ∃ middle after, call.run state = .ok middle after ∧ (next middle).run after = .ok value last := by
  change EStateM.bind call next state = _ at done
  unfold EStateM.bind at done
  split at done
  case h_1 middle after called => exact ⟨middle, after, called, done⟩
  case h_2 => cases done

/-- Both final states are related. -/
theorem Simulates.final {call : EStateM Fault State Value} {spec : EStateM Fault Shadow Value}
    (simulates : Simulates relation call spec state shadow) :
    relation (final call state) (final spec shadow) := by
  revert simulates
  unfold Simulates ThrowingCalls.final
  cases call.run state <;> cases spec.run shadow
  case ok.ok => exact And.right
  case ok.error => exact False.elim
  case error.ok => exact False.elim
  case error.error => exact And.right

/-- A caller sees whether a call throws, and what. -/
def fault (call : EStateM Fault State Value) (state : State) : Option Fault :=
  match call.run state with
  | .ok _ _ => none
  | .error thrown _ => some thrown

/-- A simulated call throws what its specification throws. -/
theorem Simulates.fault {call : EStateM Fault State Value} {spec : EStateM Fault Shadow Value}
    (simulates : Simulates relation call spec state shadow) :
    fault call state = fault spec shadow := by
  revert simulates
  unfold Simulates ThrowingCalls.fault
  cases call.run state <;> cases spec.run shadow
  case ok.ok => exact fun _ => rfl
  case ok.error => exact False.elim
  case error.ok => exact False.elim
  case error.error => exact fun simulates => congrArg some simulates.1

end ThrowingCalls
